import ShaderScript.Proofs.BreakEmission
import ShaderScript.Proofs.Layout

/-!
# Twin texts

Two texts are twins if they are put together alike, except that in some places the first has one
piece and the second another. If the two pieces start and end alike, nothing that looks at a text
tells twins apart. So every form takes twins to twins, and the places of the parts add up.
-/

namespace ShaderScript

/-- Two texts that are put together alike, except that in so many places the first has the text
`former` and the second the text `latter`. -/
inductive Twin (former latter : String) : Nat → String → String → Prop
  | same (text : String) : Twin former latter 0 text text
  | place : Twin former latter 1 former latter
  | append {m n : Nat} {left left' right right' : String} (hleft : Twin former latter m left left')
    (hright : Twin former latter n right right') :
    Twin former latter (m + n) (left ++ right) (left' ++ right')

/-- Lists of twins, with the number of places in all of them. -/
inductive Twins (former latter : String) : Nat → List String → List String → Prop
  | nil : Twins former latter 0 [] []
  | cons {m n : Nat} {text text' : String} {texts texts' : List String}
    (h : Twin former latter m text text') (hrest : Twins former latter n texts texts') :
    Twins former latter (m + n) (text :: texts) (text' :: texts')

/-- Two pieces that start and end alike. -/
structure Interchangeable (former latter : String) : Prop where
  start : former.toList.take 5 = latter.toList.take 5
  finish : former.toList.getLast? = latter.toList.getLast?

/-- The arguments of a call whose texts are written. -/
def shownArgs {α : Type} (name : String) (args : List α) : List α :=
  (chainArgs? name args).getD args

/-- Two fragments whose texts are twins. -/
structure TwinFragments (former latter : String) where
  count : Nat
  old : Fragment
  new : Fragment
  twin : Twin former latter count old.text new.text

section Twins

variable {former latter : String}

theorem size_le_total {α : Type} {size : α → Nat} {values : List α} {value : α} (h : value ∈ values) :
    size value ≤ total size values := by
  induction h with
  | head => exact Nat.le_add_right _ _
  | tail _ _ ih => exact ih.trans (Nat.le_add_left _ _)

/-! ## Arguments that are written -/

theorem shownArgs_map {α β : Type} (f : α → β) (name : String) (args : List α) :
    shownArgs name (args.map f) = (shownArgs name args).map f := by
  rw [shownArgs, shownArgs, chainArgs?_map]
  cases chainArgs? name args <;> rfl

theorem shownArgs_subset {α : Type} (name : String) (args : List α) :
    shownArgs name args ⊆ args := by
  unfold shownArgs chainArgs?
  cases SamplingCall.ofName? name with
  | none => exact List.Subset.refl _
  | some call =>
    rw [Option.bind_some]
    generalize call.modifier = modifier
    unfold SampleModifier.used?
    split <;> simp

/-- Whether an argument is written depends on its position only. -/
theorem mem_shownArgs {α : Type} {name : String} {before after : List α}
    (h : before.length ∈ shownArgs name (List.range (before.length + (after.length + 1))))
    (arg : α) : arg ∈ shownArgs name (before ++ arg :: after) := by
  let placed : List (α × Nat) := (before ++ arg :: after).zipIdx
  have hargs : placed.map Prod.fst = before ++ arg :: after := List.zipIdx_map_fst _ _
  have hindices : placed.map Prod.snd = List.range (before.length + (after.length + 1)) := by
    rw [List.zipIdx_map_snd, List.range_eq_range', List.length_append, List.length_cons]
  rw [← hindices, shownArgs_map] at h
  obtain ⟨⟨other, index⟩, hmem, rfl⟩ := List.mem_map.mp h
  have hother := List.mem_zipIdx_iff_getElem?.mp (shownArgs_subset name placed hmem)
  rw [List.getElem?_append_right (Nat.le_refl _), Nat.sub_self] at hother
  obtain rfl : arg = other := by simpa using hother
  rw [← hargs, shownArgs_map]
  exact List.mem_map.mpr ⟨_, hmem, rfl⟩

/-! ## What is seen of a text -/

theorem take_append_congr {count : Nat} {left left' right right' : List Char}
    (hleft : left.take count = left'.take count) (hright : right.take count = right'.take count) :
    (left ++ right).take count = (left' ++ right').take count := by
  have hlength : min count left.length = min count left'.length := by
    simpa using congrArg List.length hleft
  have hrest : right.take (count - left.length) = right'.take (count - left'.length) := by
    have hcount : count - left.length = count - left'.length := by omega
    have hfewer := congrArg (List.take (count - left'.length)) hright
    rw [List.take_take, List.take_take, Nat.min_eq_left (Nat.sub_le _ _)] at hfewer
    rw [hcount, hfewer]
  rw [List.take_append, List.take_append, hleft, hrest]

theorem Alike.of_take {count : Nat} {left right : List Char}
    (h : left.take count = right.take count) : Alike count left right := by
  induction count generalizing left right with
  | zero => exact .zero _ _
  | succ count ih =>
    cases left with
    | nil =>
      obtain rfl : right = [] := by simpa using h.symm
      exact .nil _
    | cons c left =>
      cases right with
      | nil => simp at h
      | cons d right =>
        obtain ⟨rfl, hrest⟩ : c = d ∧ left.take count = right.take count := by simpa using h
        exact .cons c (ih hrest)

namespace Twin

variable {m n : Nat} {text text' : String}

theorem startsLiteral_eq (hpieces : Interchangeable former latter)
    (h : Twin former latter n text text') : startsLiteral text' = startsLiteral text := by
  have htake : text'.toList.take 5 = text.toList.take 5 := by
    induction h with
    | same => rfl
    | place => exact hpieces.start.symm
    | append _ _ hleft hright =>
      rw [String.toList_append, String.toList_append]
      exact take_append_congr hleft hright
  exact (Alike.of_take htake).startsLiteral_eq

theorem terminator_eq (hpieces : Interchangeable former latter)
    (h : Twin former latter n text text') : Body.terminator text' = Body.terminator text := by
  have hlast : text'.toList.getLast? = text.toList.getLast? := by
    induction h with
    | same => rfl
    | place => exact hpieces.finish.symm
    | append _ _ hleft hright => simp [List.getLast?_append, hleft, hright]
  rw [Body.terminator, Body.terminator, hlast]

theorem eq_of_eq (heq : latter = former) (h : Twin former latter n text text') : text' = text := by
  induction h with
  | same => rfl
  | place => exact heq
  | append _ _ hleft hright => rw [hleft, hright]

/-- Each place adds the difference of the pieces. -/
theorem length_add (h : Twin former latter n text text') :
    text.length + n * latter.length = text'.length + n * former.length := by
  induction h with
  | same => rw [Nat.zero_mul, Nat.zero_mul]
  | place => omega
  | append _ _ hleft hright =>
    simp only [String.length_append, Nat.add_mul]
    omega

/-! ## Forms of text -/

theorem congr (h : Twin former latter m text text') (hcount : m = n) :
    Twin former latter n text text' :=
  hcount ▸ h

theorem before (start : String) (h : Twin former latter n text text') :
    Twin former latter n (start ++ text) (start ++ text') :=
  ((same start).append h).congr (Nat.zero_add n)

theorem after (h : Twin former latter n text text') (finish : String) :
    Twin former latter n (text ++ finish) (text' ++ finish) :=
  h.append (same finish)

theorem single (h : Twin former latter n text text') : Twins former latter n [text] [text'] :=
  .cons h .nil

end Twin

namespace Twins

variable {m n : Nat} {texts texts' others others' : List String}

theorem congr (h : Twins former latter m texts texts') (hcount : m = n) :
    Twins former latter n texts texts' :=
  hcount ▸ h

theorem same (texts : List String) : Twins former latter 0 texts texts := by
  induction texts with
  | nil => exact .nil
  | cons text texts ih => exact .cons (.same text) ih

theorem append (h : Twins former latter m texts texts')
    (hothers : Twins former latter n others others') :
    Twins former latter (m + n) (texts ++ others) (texts' ++ others') := by
  induction h with
  | nil => exact hothers.congr (Nat.zero_add n).symm
  | cons hfirst _ ih => exact (cons hfirst ih).congr (Nat.add_assoc _ _ n).symm

/-- One of the texts has another twin than itself. -/
theorem middle {text text' : String} (before after : List String)
    (h : Twin former latter n text text') :
    Twins former latter n (before ++ text :: after) (before ++ text' :: after) :=
  ((same before).append (.cons h (same after))).congr (Nat.zero_add n)

theorem texts_middle {fragment fragment' : Fragment} (before after : List Fragment)
    (h : Twin former latter n fragment.text fragment'.text) :
    Twins former latter n (Fragment.texts (before ++ fragment :: after))
      (Fragment.texts (before ++ fragment' :: after)) := by
  rw [Fragment.texts, Fragment.texts, List.map_append, List.map_append, List.map_cons,
    List.map_cons]
  exact middle _ _ h

theorem intercalate (separator : String) (h : Twins former latter n texts texts') :
    Twin former latter n (separator.intercalate texts) (separator.intercalate texts') := by
  induction h with
  | nil => exact .same _
  | cons hfirst hrest ih =>
    cases hrest with
    | nil => simpa using hfirst
    | cons hsecond hrest =>
      rw [String.intercalate_cons_cons, String.intercalate_cons_cons]
      exact (hfirst.after separator).append ih

theorem joined (h : Twins former latter n texts texts') :
    Twin former latter n (String.join texts) (String.join texts') := by
  induction h with
  | nil => exact .same _
  | cons hfirst _ ih =>
    rw [String.join_cons, String.join_cons]
    exact hfirst.append ih

theorem apply (name : String) (h : Twins former latter n texts texts') :
    Twin former latter n (Script.apply name texts) (Script.apply name texts') := by
  have hjoin : Twin former latter n (Script.join texts) (Script.join texts') := h.intercalate ", "
  cases h with
  | nil => exact .same _
  | cons => exact (hjoin.before (name ++ "( ")).after " )"

theorem method {object object' : String} (hobject : Twin former latter m object object')
    (name : String) (h : Twins former latter n texts texts') :
    Twin former latter (m + n) (Script.method object name texts)
      (Script.method object' name texts') :=
  (hobject.after ".").append (h.apply name)

theorem braced (h : Twins former latter n texts texts') :
    Twin former latter n (Script.braced texts) (Script.braced texts') :=
  ((h.intercalate ", ").before "\x7b ").after " \x7d"

theorem bracketed (h : Twins former latter n texts texts') :
    Twin former latter n (Script.bracketed texts) (Script.bracketed texts') :=
  ((h.intercalate ", ").before "[ ").after " ]"

end Twins

/-! ## Expressions and declarations -/

namespace TwinFragments

/-- A fragment is its own twin. -/
def same (fragment : Fragment) : TwinFragments former latter :=
  ⟨0, fragment, fragment, .same _⟩

theorem old_same (part : Option Fragment) :
    (part.map same).map (old : TwinFragments former latter → Fragment) = part := by
  cases part <;> rfl

theorem new_same (part : Option Fragment) :
    (part.map same).map (new : TwinFragments former latter → Fragment) = part := by
  cases part <;> rfl

def optionalCount (part : Option (TwinFragments former latter)) : Nat :=
  (part.map count).getD 0

theorem twins (parts : List (TwinFragments former latter)) :
    Twins former latter (total count parts) (Fragment.texts (parts.map old))
      (Fragment.texts (parts.map new)) := by
  induction parts with
  | nil => exact .nil
  | cons part parts ih => exact .cons part.twin ih

theorem twin_optional (part : Option (TwinFragments former latter)) (default : String) :
    Twin former latter (optionalCount part) (((part.map old).map Fragment.text).getD default)
      (((part.map new).map Fragment.text).getD default) := by
  cases part with
  | none => exact .same _
  | some part => exact part.twin

end TwinFragments

open TwinFragments

section Forms

variable (hpieces : Interchangeable former latter) {k m n : Nat}
  {first second third first' second' third' : Fragment}

include hpieces in
theorem twin_binary (op : BinaryOp) (hfirst : Twin former latter m first.text first'.text)
    (hsecond : Twin former latter n second.text second'.text) :
    Twin former latter (m + n) (Form.binary op first second).text
      (Form.binary op first' second').text := by
  simp only [Form.binary, hfirst.startsLiteral_eq hpieces, hsecond.startsLiteral_eq hpieces]
  split_ifs
  · exact (((hfirst.after " ").after op.spelling).after " ").append hsecond
  · exact (Twins.cons hfirst hsecond.single).apply op.method
  · exact (hfirst.after ".").append hsecond
  · exact hsecond.single.method hfirst op.method

include hpieces in
theorem twin_unary (op : UnaryOp) (trailing initializing : Bool)
    (h : Twin former latter n first.text first'.text) :
    Twin former latter n (Form.unary op trailing initializing first).text
      (Form.unary op trailing initializing first').text := by
  unfold Form.unary
  split
  · exact h
  · rename_i name _
    rw [h.startsLiteral_eq hpieces]
    split_ifs
    · exact h.single.apply name
    · exact Twins.nil.method h name

theorem twin_ternary (hfirst : Twin former latter k first.text first'.text)
    (hsecond : Twin former latter m second.text second'.text)
    (hthird : Twin former latter n third.text third'.text) :
    Twin former latter (k + (m + n)) (Form.ternary first second third).text
      (Form.ternary first' second' third').text :=
  (Twins.cons hfirst (.cons hsecond hthird.single)).apply "select"

theorem twin_member (h : Twin former latter n first.text first'.text) :
    Twin former latter n (Form.link (.member first)).text (Form.link (.member first')).text :=
  h.before "."

include hpieces in
theorem twin_index (h : Twin former latter n first.text first'.text) :
    Twin former latter n (Form.link (.index first)).text (Form.link (.index first')).text := by
  simp only [Form.link, h.startsLiteral_eq hpieces]
  split_ifs
  · exact h.single.bracketed
  · exact (h.single.apply "element").before "."

/-- A sampling chain has the places of the arguments that it is built from. -/
theorem twin_sampleChain (name : String) (args : List (TwinFragments former latter)) :
    (sampleChain? name (Fragment.texts (args.map old)) = none ∧
        sampleChain? name (Fragment.texts (args.map new)) = none ∧ chainArgs? name args = none) ∨
      ∃ chain chain' used, sampleChain? name (Fragment.texts (args.map old)) = some chain ∧
        sampleChain? name (Fragment.texts (args.map new)) = some chain' ∧
        chainArgs? name args = some used ∧
        Twin former latter (total count used) chain chain' := by
  unfold sampleChain? chainArgs?
  cases SamplingCall.ofName? name with
  | none => exact .inl ⟨rfl, rfl, rfl⟩
  | some call =>
    simp only [Option.bind_eq_bind, Option.bind_some]
    generalize call.modifier = modifier
    rcases args with _ | ⟨a, _ | ⟨b, rest⟩⟩
    · left; cases modifier <;> exact ⟨rfl, rfl, rfl⟩
    · left; cases modifier <;> exact ⟨rfl, rfl, rfl⟩
    · have hsample := b.twin.single.method a.twin "sample"
      cases modifier with
      | optionalBias =>
        right
        rcases rest with _ | ⟨c, rest⟩
        · exact ⟨_, _, _, rfl, rfl, rfl, hsample⟩
        · refine ⟨_, _, _, rfl, rfl, rfl, ?_⟩
          exact (c.twin.single.method hsample "bias").congr (Nat.add_assoc _ _ _)
      | level =>
        rcases rest with _ | ⟨c, rest⟩
        · exact .inl ⟨rfl, rfl, rfl⟩
        · refine .inr ⟨_, _, _, rfl, rfl, rfl, ?_⟩
          exact (c.twin.single.method hsample "level").congr (Nat.add_assoc _ _ _)
      | grad =>
        rcases rest with _ | ⟨c, _ | ⟨d, rest⟩⟩
        · exact .inl ⟨rfl, rfl, rfl⟩
        · exact .inl ⟨rfl, rfl, rfl⟩
        · refine .inr ⟨_, _, _, rfl, rfl, rfl, ?_⟩
          have hgrad := (Twins.cons c.twin d.twin.single).method hsample "grad"
          exact hgrad.congr (Nat.add_assoc _ _ _)
      | noInterpolation =>
        refine .inr ⟨_, _, _, rfl, rfl, rfl, ?_⟩
        exact (Twin.same "false").single.method hsample "setSampler"

theorem twin_call (name : String) (args : List (TwinFragments former latter)) :
    Twin former latter (total count (shownArgs name args))
      (Form.call name (args.map old)).text (Form.call name (args.map new)).text := by
  unfold Form.call shownArgs
  obtain ⟨hold, hnew, hargs⟩ | ⟨chain, chain', used, hold, hnew, hargs, htwin⟩ :=
    twin_sampleChain name args
  · rw [hold, hnew, hargs]
    exact (twins args).apply name
  · rw [hold, hnew, hargs]
    exact htwin

theorem twin_chain {links links' : List Fragment}
    (h : Twin former latter m first.text first'.text)
    (hlinks : Twins former latter n (Fragment.texts links) (Fragment.texts links')) :
    Twin former latter (m + n) (Form.chain first links).text (Form.chain first' links').text :=
  h.append hlinks.joined

theorem twin_returned (h : Twin former latter n first.text first'.text) :
    Twin former latter n (Form.returned (some first)).text (Form.returned (some first')).text :=
  h.before "return "

theorem twin_binding (name type : String) (isConverted mutable : Bool)
    (h : Twin former latter n first.text first'.text) :
    Twin former latter n (Form.binding name type (some first) isConverted mutable).text
      (Form.binding name type (some first') isConverted mutable).text := by
  refine Twin.after (Twin.before (name ++ " = ") ?_) _
  cases isConverted with
  | false => exact h.single.apply type
  | true => exact h

theorem twin_bindings {parts parts' : List Fragment} (types : List String)
    (h : Twins former latter n (Fragment.texts parts) (Fragment.texts parts')) :
    Twin former latter n (Form.bindings parts types).text (Form.bindings parts' types).text :=
  (h.intercalate ", ").before "const "

/-! ## Statements with bodies -/

theorem Twin.block {text text' : String} (depth : Nat) (h : Twin former latter n text text') :
    Twin former latter n (Script.block depth text) (Script.block depth text') :=
  (((h.before "\x7b\n\n").after "\n\n").after (Script.tabs depth)).after "\x7d"

theorem Twin.callback {text text' : String} (params : String) (depth : Nat)
    (h : Twin former latter n text text') :
    Twin former latter n (Script.callback params depth text)
      (Script.callback params depth text') :=
  (h.block depth).before (params ++ " => ")

theorem twin_alternateTest (depth : Nat) (body : Fragment)
    (h : Twin former latter n first.text first'.text) :
    Twin former latter n (Form.alternate depth (some first, body)).text
      (Form.alternate depth (some first', body)).text :=
  ((Twins.cons h (.same [_])).apply "ElseIf").before "."

theorem twin_alternateBody (depth : Nat) (condition : Option Fragment)
    (h : Twin former latter n first.text first'.text) :
    Twin former latter n (Form.alternate depth (condition, first)).text
      (Form.alternate depth (condition, first')).text := by
  have hthunk := h.callback "()" depth
  cases condition with
  | none => exact (hthunk.single.apply "Else").before "."
  | some condition => exact ((Twins.middle [_] [] hthunk).apply "ElseIf").before "."

theorem twins_alternates (depth : Nat) {link link' : Option Fragment × Fragment}
    (before after : List (Option Fragment × Fragment))
    (h : Twin former latter n (Form.alternate depth link).text (Form.alternate depth link').text) :
    Twins former latter n
      (Fragment.texts ((before ++ link :: after).map (Form.alternate depth)))
      (Fragment.texts ((before ++ link' :: after).map (Form.alternate depth))) := by
  rw [List.map_append, List.map_append, List.map_cons, List.map_cons]
  exact .texts_middle _ _ h

theorem twin_conditional (depth : Nat) {alternates alternates' : List (Option Fragment × Fragment)}
    (hfirst : Twin former latter k first.text first'.text)
    (hsecond : Twin former latter m second.text second'.text)
    (hlinks : Twins former latter n (Fragment.texts (alternates.map (Form.alternate depth)))
      (Fragment.texts (alternates'.map (Form.alternate depth)))) :
    Twin former latter (k + m + n) (Form.conditional depth first second alternates).text
      (Form.conditional depth first' second' alternates').text := by
  have hthunk := (hsecond.callback "()" depth).single
  exact ((Twins.cons hfirst hthunk).apply "If").append hlinks.joined

/-- The places in an arm of a switch. -/
def Arm.twinCount (arm : Arm (TwinFragments former latter) (TwinFragments former latter)) : Nat :=
  total count arm.labels + optionalCount arm.body?

theorem twin_arm (depth : Nat)
    (arm : Arm (TwinFragments former latter) (TwinFragments former latter)) :
    Twin former latter arm.twinCount (Form.arm depth (arm.map old old)).text
      (Form.arm depth (arm.map new new)).text := by
  have hthunk := ((twin_optional arm.body? "").callback "()" depth).single
  cases arm with
  | cases labels body closed => exact (((twins labels).append hthunk).apply "Case").before "."
  | default body => exact ((hthunk.apply "Default").before ".").congr (Nat.zero_add _).symm

theorem twin_discriminant (depth : Nat) (cases : List (Option Fragment × Option Fragment))
    (h : Twin former latter n first.text first'.text) :
    Twin former latter n (Form.switch depth first cases).text
      (Form.switch depth first' cases).text :=
  (((h.single.apply "Switch").after "\n").after (Script.tabs (depth + 1))).after _

theorem twin_switch (depth : Nat) (discriminant : Fragment)
    (cases : List (Option (TwinFragments former latter) × Option (TwinFragments former latter))) :
    Twin former latter (total Arm.twinCount (Arm.group [] cases))
      (Form.switch depth discriminant (cases.map (Prod.map (Option.map old) (Option.map old)))).text
      (Form.switch depth discriminant
        (cases.map (Prod.map (Option.map new) (Option.map new)))).text := by
  have harms : ∀ arms : List (Arm (TwinFragments former latter) (TwinFragments former latter)),
      Twins former latter (total Arm.twinCount arms)
        (Fragment.texts ((arms.map (Arm.map old old)).map (Form.arm (depth + 1))))
        (Fragment.texts ((arms.map (Arm.map new new)).map (Form.arm (depth + 1)))) := by
    intro arms
    induction arms with
    | nil => exact .nil
    | cons arm arms ih => exact .cons (twin_arm (depth + 1) arm) ih
  have hold := Arm.group_map old old [] cases
  have hnew := Arm.group_map new new [] cases
  rw [List.map_nil] at hold hnew
  simp only [Form.switch, hold, hnew]
  exact (harms _).joined.before _

/-- Every label of a case stands in an arm. -/
theorem count_le_of_label
    {cases : List (Option (TwinFragments former latter) × Option (TwinFragments former latter))}
    {label : TwinFragments former latter} {body : Option (TwinFragments former latter)}
    (h : (some label, body) ∈ cases) :
    label.count ≤ (total Arm.twinCount (Arm.group [] cases)) := by
  have hlabel : label ∈ (Arm.group [] cases).flatMap Arm.labels := by
    rw [Arm.flatMap_labels_group, List.nil_append]
    exact List.mem_filterMap.mpr ⟨_, h, rfl⟩
  obtain ⟨arm, harm, hmem⟩ := List.mem_flatMap.mp hlabel
  calc label.count ≤ total count arm.labels := size_le_total hmem
    _ ≤ arm.twinCount := Nat.le_add_right _ _
    _ ≤ _ := size_le_total harm

/-- Every body of a case stands in an arm. -/
theorem count_le_of_body
    {cases : List (Option (TwinFragments former latter) × Option (TwinFragments former latter))}
    {label : Option (TwinFragments former latter)} {body : TwinFragments former latter}
    (h : (label, some body) ∈ cases) :
    body.count ≤ (total Arm.twinCount (Arm.group [] cases)) := by
  have hbody : body ∈ (Arm.group [] cases).filterMap Arm.body? :=
    (Arm.mem_bodies_group [] cases body).mpr (List.mem_filterMap.mpr ⟨_, h, rfl⟩)
  obtain ⟨arm, harm, hmem⟩ := List.mem_filterMap.mp hbody
  have hcount : arm.twinCount = total count arm.labels + body.count := by
    rw [Arm.twinCount, hmem]
    rfl
  calc body.count ≤ arm.twinCount := hcount ▸ Nat.le_add_left _ _
    _ ≤ _ := size_le_total harm

/-- A label and a body of one case of a switch have twins. -/
theorem exists_twin_switch (depth : Nat) (discriminant : Fragment)
    (before after : List (Option Fragment × Option Fragment))
    (label body : Option (TwinFragments former latter)) :
    ∃ total, Twin former latter total
        (Form.switch depth discriminant (before ++ (label.map old, body.map old) :: after)).text
        (Form.switch depth discriminant (before ++ (label.map new, body.map new) :: after)).text ∧
      optionalCount label ≤ total ∧ optionalCount body ≤ total := by
  let unchanged : List (Option Fragment × Option Fragment) →
      List (Option (TwinFragments former latter) × Option (TwinFragments former latter)) :=
    List.map (Prod.map (Option.map same) (Option.map same))
  have hold : ∀ entries, (unchanged entries).map (Prod.map (Option.map old) (Option.map old)) =
      entries := by
    intro entries
    simp [unchanged, Function.comp_def, Prod.map, -Option.map_map, old_same]
  have hnew : ∀ entries, (unchanged entries).map (Prod.map (Option.map new) (Option.map new)) =
      entries := by
    intro entries
    simp [unchanged, Function.comp_def, Prod.map, -Option.map_map, new_same]
  have hswitch := twin_switch depth discriminant
    (unchanged before ++ (label, body) :: unchanged after)
  have hmem : (label, body) ∈ unchanged before ++ (label, body) :: unchanged after :=
    List.mem_append_right _ List.mem_cons_self
  rw [List.map_append, List.map_append, List.map_cons, List.map_cons, hold, hold, hnew,
    hnew] at hswitch
  refine ⟨_, hswitch, ?_, ?_⟩
  · cases label with
    | none => exact Nat.zero_le _
    | some label => exact count_le_of_label hmem
  · cases body with
    | none => exact Nat.zero_le _
    | some body => exact count_le_of_body hmem

/-! ## Bodies -/

theorem spacing_of_kind {node node' : Node} (h : node'.kind = node.kind) :
    node'.spacing = node.spacing := by
  have hspacing : ∀ node : Node, node.spacing =
      (decide (node.kind ∉ [.function, .loop, .conditional, .switch]), node.kind == .return) := by
    intro node
    cases node <;> rfl
  rw [hspacing, hspacing, h]

include hpieces in
/-- Only the line of the statement itself changes. -/
theorem twins_lines (depth : Nat) (previous : Option Node) {node node' : Node}
    (before after : List (Node × Fragment)) (hkind : node'.kind = node.kind)
    (h : Twin former latter n first.text first'.text) :
    Twins former latter n (Body.lines depth previous (before ++ (node, first) :: after))
      (Body.lines depth previous (before ++ (node', first') :: after)) := by
  have hspacing := spacing_of_kind hkind
  induction before generalizing previous with
  | nil =>
    have hgap : Body.gap previous node' = Body.gap previous node := Body.gap_congr rfl hspacing
    have hrest : Body.lines depth (some node') after = Body.lines depth (some node) after :=
      Body.lines_congr (congrArg some hspacing) rfl
    simp only [List.nil_append, Body.lines, hgap, hrest, h.terminator_eq hpieces]
    exact .cons ((h.before _).after _) (.same _)
  | cons entry before ih =>
    exact (Twins.cons (.same _) (ih (some entry.1))).congr (Nat.zero_add n)

include hpieces in
theorem twin_body {context : Context} {node node' : Node} (before after : List Node)
    (hkind : node'.kind = node.kind) (hbreak : node.kind ≠ .break)
    (h : Twin former latter n (emit context node).text (emit context node').text) :
    Twin former latter n (emitBody context (before ++ node :: after)).text
      (emitBody context (before ++ node' :: after)).text := by
  have hkept : ∀ inner : Node, inner.kind ≠ .break →
      Body.kept context.inCase (before ++ inner :: after) =
        Body.kept context.inCase before ++ inner :: Body.kept context.inCase after := by
    intro inner hinner
    rw [Body.kept, List.filter_append, List.filter_cons_of_pos]
    · rfl
    · rw [isDropped_eq_false _ hinner]
      rfl
  rw [emitBody, emitBody, Body.ofFragments, Body.ofFragments, Body.assemble_map,
    Body.assemble_map, hkept node hbreak, hkept node' (hkind ▸ hbreak), List.map_append,
    List.map_append, List.map_cons, List.map_cons]
  exact (twins_lines hpieces context.depth none _ _ hkind h).intercalate "\n"

/-! ## Loops -/

theorem twin_countingStart (depth : Nat) (counting : Counting Fragment) (body : Fragment)
    (h : Twin former latter n first.text first'.text) :
    Twin former latter n (Form.countingLoop depth { counting with start := first } body).text
      (Form.countingLoop depth { counting with start := first' } body).text := by
  have hentries := Twins.cons (h.before "start: ") (.same (counting.map Fragment.text).config.tail)
  exact (Twins.cons hentries.braced (.same [_])).apply "Loop"

theorem twin_countingLimit (depth : Nat) (counting : Counting Fragment) (body : Fragment)
    (h : Twin former latter n first.text first'.text) :
    Twin former latter n (Form.countingLoop depth { counting with limit := first } body).text
      (Form.countingLoop depth { counting with limit := first' } body).text := by
  have hentries := Twins.middle [Script.entry "start" counting.start.text]
    (counting.map Fragment.text).config.tail.tail (h.before "end: ")
  exact (Twins.cons hentries.braced (.same [_])).apply "Loop"

theorem twin_countingAssignment (depth : Nat) (counting : Counting Fragment) (body : Fragment)
    (h : Twin former latter n first.text first'.text) :
    Twin former latter n
      (Form.countingLoop depth { counting with update := .assign first } body).text
      (Form.countingLoop depth { counting with update := .assign first' } body).text := by
  have hupdate := (h.before ("( " ++ Script.braced [counting.name] ++ " ) => ")).before "update: "
  have hentries : Twins former latter n
      (Counting.map Fragment.text { counting with update := .assign first }).config
      (Counting.map Fragment.text { counting with update := .assign first' }).config :=
    ((Twins.same _).append hupdate.single).congr (Nat.zero_add n)
  exact (Twins.cons hentries.braced (.same [_])).apply "Loop"

theorem twin_countingBody (depth : Nat) (counting : Counting Fragment)
    (h : Twin former latter n first.text first'.text) :
    Twin former latter n (Form.countingLoop depth counting first).text
      (Form.countingLoop depth counting first').text := by
  have hcallback := h.callback ("( " ++ Script.braced [counting.name] ++ " )") depth
  exact (Twins.middle [_] [] hcallback).apply "Loop"

theorem twin_generalInitial (depth : Nat) (condition afterthought : Option Fragment)
    (body : Fragment) (h : Twin former latter n first.text first'.text) :
    Twin former latter n (Form.generalLoop depth (some first) condition afterthought body).text
      (Form.generalLoop depth (some first') condition afterthought body).text := by
  have hsetup := (h.before (Script.tabs (depth + 1))).after ";\n\n"
  exact ((hsetup.after (Script.tabs (depth + 1))).after _).block depth

theorem twin_generalCondition (depth : Nat) (initial afterthought : Option Fragment)
    (body : Fragment) (h : Twin former latter n first.text first'.text) :
    Twin former latter n (Form.generalLoop depth initial (some first) afterthought body).text
      (Form.generalLoop depth initial (some first') afterthought body).text :=
  (((Twins.cons h (.same [_])).apply "Loop").before _).block depth

theorem twin_generalAfterthought (depth : Nat) (initial condition : Option Fragment)
    (body : Fragment) (h : Twin former latter n first.text first'.text) :
    Twin former latter n (Form.generalLoop depth initial condition (some first) body).text
      (Form.generalLoop depth initial condition (some first') body).text := by
  have hfinish := (h.before ("\n\n" ++ Script.tabs (depth + 2))).after ";"
  have hthunk := (hfinish.before body.text).callback "()" (depth + 1)
  exact (((Twins.middle [_] [] hthunk).apply "Loop").before _).block depth

theorem twin_generalBody (depth : Nat) (initial condition afterthought : Option Fragment)
    (h : Twin former latter n first.text first'.text) :
    Twin former latter n (Form.generalLoop depth initial condition afterthought first).text
      (Form.generalLoop depth initial condition afterthought first').text := by
  have hthunk (finish : String) := (h.after finish).callback "()" (depth + 1)
  exact (((Twins.middle [_] [] (hthunk _)).apply "Loop").before _).block depth

end Forms

end Twins

end ShaderScript
