import Mathlib.Data.List.DropRight
import ShaderScript.Proofs.Json.Places
import ShaderScript.Wire.Load

/-!
# Where a program is refused

Every refusal of a text that holds no program is reported at a place in the text, whether the text
is no JSON or JSON of another shape. A node is decoded only when it has been read as a whole, so a
difference deep inside it is reported behind it; that is still a place in the text. The line and the
column are those of the bytes before the place.
-/

namespace ShaderScript

/-! ## Lines and columns -/

namespace Json.Position

theorem after_concat (bytes : List UInt8) (byte : UInt8) :
    after (bytes ++ [byte]) = (after bytes).next byte := by
  rw [after, List.foldl_append]
  rfl

/-- The line counts the line breaks. -/
theorem line_after (bytes : List UInt8) : (after bytes).line = 1 + bytes.count 10 := by
  induction bytes using List.reverseRecOn with
  | nil => rfl
  | append_singleton bytes byte ih =>
    rw [after_concat, next, List.count_append, List.count_singleton]
    split
    · rename_i hbreak
      rw [hbreak, ih]
      rfl
    · rename_i hother
      rw [if_neg (by simpa using hother), ih]
      rfl

/-- The column counts the bytes after the last line break. -/
theorem column_after (bytes : List UInt8) :
    (after bytes).column = (bytes.rtakeWhile (· != 10)).length := by
  induction bytes using List.reverseRecOn with
  | nil => rfl
  | append_singleton bytes byte ih =>
    rw [after_concat, next, List.rtakeWhile_concat]
    split
    · rename_i hbreak
      rw [if_neg (by simp [hbreak])]
      rfl
    · rename_i hother
      rw [if_pos (by simpa using hother), List.length_append, ← ih]
      rfl

theorem before_eq (text : String) (unread : Nat) :
    before text unread =
      after (text.toUTF8.data.toList.take (text.toUTF8.data.toList.length - unread)) := by
  simp [before]

end Json.Position

theorem Json.length_utf8Encode (text : List Char) :
    text.utf8Encode.data.toList.length = byteSize text := by
  induction text with
  | nil => rfl
  | cons c text ih =>
    have hfirst : [c].utf8Encode.data.toList.length = byteSize [c] := by
      simp [List.utf8Encode, byteSize]
    rw [List.utf8Encode_cons, ByteArray.data_append, Array.toList_append, List.length_append,
      hfirst, ih, ← byteSize_append, List.singleton_append]

/-- The bytes of a text, counted one character after another. -/
theorem Json.length_toUTF8 (text : String) :
    text.toUTF8.data.toList.length = byteSize text.toList := by
  rw [← length_utf8Encode, String.utf8Encode_toList]
  rfl

/-! ## Programs -/

namespace Wire

open ShaderScript.Json

section Readers

variable (limit depth : Nat) (text : List Char)

theorem stays_readTag : Stays text Prod.snd (readTag text) := by
  apply Stays.skipBlanks
  rw [readTag]
  generalize skipBlanks text = found
  split
  · exact stays_refuse_end _
  · exact (stays_readString _).cons _
  · exact stays_rejectValue _ _ _

theorem afterKey_suffix : afterKey text <:+ text := by
  have hblanks : skipBlanks text <:+ text := List.dropWhile_suffix _
  rw [afterKey]
  split
  · rename_i rest hclose
    rw [hclose] at hblanks
    exact (List.suffix_cons _ rest).trans hblanks
  · exact hblanks

theorem afterItem_suffix : afterItem text <:+ text := by
  have hblanks : skipBlanks text <:+ text := List.dropWhile_suffix _
  rw [afterItem]
  split
  · rename_i rest hclose
    rw [hclose] at hblanks
    exact (List.suffix_cons _ rest).trans hblanks
  · rename_i rest hcomma
    rw [hcomma] at hblanks
    exact ((List.dropWhile_suffix _).trans (List.suffix_cons _ rest)).trans hblanks
  · exact hblanks

theorem stays_readNodeMember (members : List (String × Value)) (key : String) :
    Stays text Prod.snd (readNodeMember limit depth members key text) := by
  rw [readNodeMember]
  split
  · split
    · exact stays_reject _ (afterKey_suffix text)
    · refine (stays_readColon text).bind fun rest => ?_
      exact (stays_readTag rest).bind fun read => List.suffix_rfl
  · exact stays_readMember text (fun text => stays_readValue limit text depth) members key

theorem stays_readNodeValue : Stays text Prod.snd (readNodeValue limit depth text) := by
  have hmember := fun members key text => stays_readNodeMember limit depth text members key
  apply Stays.skipBlanks
  rw [readNodeValue]
  generalize skipBlanks text = found
  split
  · exact stays_refuse_end _
  · rename_i inside
    apply Stays.cons
    apply Stays.skipBlanks
    generalize skipBlanks inside = first
    split
    · exact stays_refuse_end _
    · exact stays_reject _ (List.suffix_cons _ _)
    · refine (stays_readTag _).bind fun name => ?_
      refine (stays_readMoreItems limit name.2 fun text => stays_readValue limit text depth).bind ?_
      exact fun items => List.suffix_rfl
  · refine ((stays_readMembers limit _ hmember []).cons _).bind fun members => ?_
    dsimp only
    split
    · exact List.suffix_rfl
    · exact stays_reject _ List.suffix_rfl
  · exact stays_rejectValue _ _ _

/-- A node that cannot be decoded is refused behind it. -/
theorem stays_readNode : Stays text Prod.snd (readNode limit depth text) := by
  refine (stays_readNodeValue limit depth text).bind fun read => ?_
  dsimp only
  split
  · exact List.suffix_rfl
  · exact stays_reject _ (afterItem_suffix read.2)

theorem stays_readBody : Stays text Prod.snd (readBody limit text) := by
  apply Stays.skipBlanks
  rw [readBody]
  generalize skipBlanks text = found
  split
  · exact stays_refuse_end _
  · exact (stays_readItems limit _ fun text => stays_readNode limit _ text).cons _
  · exact stays_rejectValue _ _ _

theorem stays_readProgramMember (body : Option (List Node)) (key : String) :
    Stays text Prod.snd (readProgramMember limit body key text) := by
  rw [readProgramMember]
  split
  · split
    · exact stays_reject _ (afterKey_suffix text)
    · refine (stays_readColon text).bind fun rest => ?_
      exact (stays_readBody limit rest).bind fun nodes => List.suffix_rfl
  · refine (stays_readColon text).bind fun rest => ?_
    exact (stays_skipValue rest limit).bind fun rest => List.suffix_rfl

theorem stays_closeProgram : Stays text id (closeProgram text) := by
  apply Stays.skipBlanks
  rw [closeProgram]
  generalize skipBlanks text = found
  split
  · exact stays_refuse_end _
  · exact List.suffix_cons _ _
  · rename_i more
    apply Stays.cons
    apply Stays.skipBlanks
    generalize skipBlanks more = next
    split
    · exact stays_refuseNext _
    · exact stays_refuseNext _
  · exact stays_refuseNext _

theorem stays_readProgram : Stays text Prod.snd (readProgram limit text) := by
  have hmember := fun body key text => stays_readProgramMember limit text body key
  apply Stays.skipBlanks
  rw [readProgram]
  generalize skipBlanks text = found
  split
  · exact stays_refuse_end _
  · rename_i inside
    apply Stays.cons
    apply Stays.skipBlanks
    generalize skipBlanks inside = first
    split
    · exact stays_refuse_end _
    · exact stays_reject _ (List.suffix_cons _ _)
    · refine (stays_readBody limit _).bind fun body => ?_
      exact (stays_closeProgram body.2).bind fun rest => List.suffix_rfl
  · refine ((stays_readMembers limit _ hmember none).cons _).bind fun body => ?_
    dsimp only
    split
    · exact List.suffix_rfl
    · exact stays_reject _ List.suffix_rfl
  · exact stays_rejectValue _ _ _

theorem stays_readAll : Stays text (fun _ => []) (readAll text) := by
  refine (stays_readProgram text.length text).bind fun read => ?_
  apply Stays.skipBlanks
  dsimp only
  generalize skipBlanks read.2 = found
  split
  · exact List.nil_suffix
  · exact stays_refuseNext _

end Readers

end Wire

open ShaderScript.Json in
/-- A text that holds no program is refused at a place in it. The bytes before the place are those
that the reader does not count as unread. The line is one more than their line breaks, the column is
the number of bytes after the last of these, and the message names both twice. -/
theorem refused_at_place {source : String} {error : LoadError}
    (h : Program.load source = .error error) :
    ∃ (refusal : Refusal) (read unread : List UInt8),
      Wire.readAll source.toList = .error refusal ∧
      source.toUTF8.data.toList = read ++ unread ∧ unread.length = refusal.unread ∧
      error.position.line = 1 + read.count 10 ∧
      error.position.column = (read.rtakeWhile (· != 10)).length ∧
      error.message =
        "invalid AST JSON at line " ++ toString error.position.line ++ ", column " ++
          toString error.position.column ++ ": " ++ refusal.cause.message ++ " at line " ++
          toString error.position.line ++ " column " ++ toString error.position.column := by
  rw [Program.load] at h
  split at h
  · cases h
  · rename_i refusal hread
    obtain rfl := Except.error.inj h
    have hplace : refusal.unread ≤ source.toUTF8.data.toList.length := by
      have hstays := Wire.stays_readAll source.toList
      rw [hread] at hstays
      rw [length_toUTF8]
      exact hstays
    generalize hbytes : source.toUTF8.data.toList = bytes at hplace
    refine ⟨refusal, bytes.take (bytes.length - refusal.unread),
      bytes.drop (bytes.length - refusal.unread), hread, (List.take_append_drop _ _).symm,
      ?_, ?_, ?_, rfl⟩
    · rw [List.length_drop]
      omega
    · rw [Position.before_eq, hbytes, Position.line_after]
    · rw [Position.before_eq, hbytes, Position.column_after]

/-- The value of a `return` that is no node: the difference is reported behind the list of nodes. -/
theorem refused_at_place_behind_nodes :
    let source := "\x7b\"body\":[\n\x7b\"kind\":\"Break\"\x7d,\n[\"Return\",\x7b\x7d]\n]\x7d"
    ∃ error, Program.load source = .error error ∧ error.position = ⟨4, 1⟩ ∧
      ∃ read unread : List UInt8, source.toUTF8.data.toList = read ++ unread ∧
        4 = 1 + read.count 10 ∧ 1 = (read.rtakeWhile (· != 10)).length := by
  intro source
  have hrefused : (match Program.load source with
      | .error error => some error.position
      | .ok _ => none) = some ⟨4, 1⟩ := by decide +kernel
  cases hload : Program.load source with
  | ok program =>
    rw [hload] at hrefused
    cases hrefused
  | error error =>
    rw [hload] at hrefused
    have hposition : error.position = ⟨4, 1⟩ := Option.some.inj hrefused
    obtain ⟨refusal, read, unread, -, hbytes, -, hline, hcolumn, -⟩ := refused_at_place hload
    rw [hposition] at hline hcolumn
    exact ⟨error, rfl, hposition, read, unread, hbytes, hline, hcolumn⟩

end ShaderScript
