import ShaderScript.Proofs.Entries
import ShaderScript.Proofs.LiteralHeads

/-!
# Counting loops as the library sees them

A counting loop is written as an object that lists only what differs from the defaults of the
library. Here such a loop is written from the texts of its operands, and the object is read again,
with the defaults filled in. What is read is the loop that was written.
-/

namespace ShaderScript

/-! ## Loops -/

/-- What happens to the counter after each run of the body. -/
inductive CounterUpdate where
  | increment
  | decrement
  /-- An assignment, with an operand that is evaluated in the callback. -/
  | assign (op : BinaryOp) (amount : String)
  /-- An operand is added that is evaluated outside the callback. -/
  | add (amount : String)
deriving DecidableEq

/-- A counting loop, with the texts of its operands. -/
structure CounterLoop where
  name : String
  type : String
  start : String
  comparison : BinaryOp
  limit : String
  update : CounterUpdate
deriving DecidableEq

/-! ## Writing -/

/-- The text of an assignment to the counter. -/
def assignmentText (name : String) (op : BinaryOp) (amount : String) : String :=
  (Form.binary op (Form.accessor name) (.plain amount)).text

/-- The update as it is written. -/
def CounterUpdate.toUpdate (name : String) : CounterUpdate → Update String
  | .increment => .increment
  | .decrement => .decrement
  | .assign op amount => .assign (assignmentText name op amount)
  | .add amount => .step amount

/-- The loop as it is written. -/
def CounterLoop.toCounting (loop : CounterLoop) : Counting String where
  name := loop.name
  type := loop.type
  start := loop.start
  comparison := loop.comparison
  limit := loop.limit
  update := loop.update.toUpdate loop.name

/-! ## Reading -/

/-- What follows the given start of a text. -/
def after? (start text : String) : Option String :=
  if start.toList <+: text.toList then
    some (String.ofList (text.toList.drop start.toList.length))
  else none

/-- The name of the function that the text calls, and the text of its arguments. -/
def readCall (text : String) : String × String :=
  let name := text.toList.takeWhile (· != '(')
  (String.ofList name, String.ofList ((text.toList.drop (name.length + 2)).rdrop 2))

/-- The operator with this combinator. -/
def BinaryOp.ofMethod? (name : String) : Option BinaryOp :=
  all.find? fun op => op.method == name

/-- The operator and the operand of an assignment to the target, in any of its three forms. -/
def readAssignment? (target code : String) : Option (BinaryOp × String) :=
  match after? (target ++ ".") code, after? (target ++ " ") code with
  | some call, _ => (BinaryOp.ofMethod? (readCall call).1).map (·, (readCall call).2)
  | none, some rest =>
    let spelling := rest.toList.takeWhile (· != ' ')
    (BinaryOp.ofSpelling? (String.ofList spelling)).map
      (·, String.ofList (rest.toList.drop (spelling.length + 1)))
  | none, none => do
    let op ← BinaryOp.ofMethod? (readCall code).1
    let amount ← after? (target ++ ", ") (readCall code).2
    some (op, amount)

/-- The update that an entry stands for. Without an entry, the counter goes up by one. -/
def readUpdate? (name : String) : Option String → Option CounterUpdate
  | none => some .increment
  | some value =>
    if value = Script.literal UnaryOp.decrement.spelling then some .decrement
    else
      match after? ("( " ++ Script.braced [name] ++ " ) => ") value with
      | some code =>
        (readAssignment? (Script.orUnknown name) code).map fun (op, amount) => .assign op amount
      | none => some (.add value)

/-- The text in quotes. -/
def unquote (text : String) : String :=
  String.ofList ((text.toList.drop 1).rdrop 1)

/-- The loop that a text starts with. What is not given is `int i`, `<` and `i++`. -/
def readCounting? (text : String) : Option CounterLoop := do
  let config ← after? "Loop( " text
  let entries := readObject config.toList
  let name := (entries.lookup "name").elim "i" unquote
  let type := (entries.lookup "type").elim "int" unquote
  let start ← entries.lookup "start"
  let limit ← entries.lookup "end"
  let comparison ← BinaryOp.ofSpelling?
    ((entries.lookup "condition").elim BinaryOp.lessThan.spelling unquote)
  let update ← readUpdate? name (entries.lookup "update")
  some ⟨name, type, start, comparison, limit, update⟩

/-! ## Reading what was written -/

theorem after?_append (start rest : String) : after? start (start ++ rest) = some rest := by
  simp [after?]

theorem eq_of_after? {start text rest : String} (h : after? start text = some rest) :
    text = start ++ rest := by
  unfold after? at h
  split at h
  · rename_i hstart
    obtain ⟨tail, htail⟩ := hstart
    obtain rfl : String.ofList (text.toList.drop start.toList.length) = rest := Option.some.inj h
    rw [← String.toList_inj, ← htail]
    simp
  · cases h

theorem after?_eq_none {start text : String} (h : ∀ rest, text ≠ start ++ rest) :
    after? start text = none := by
  cases hafter : after? start text with
  | none => rfl
  | some rest => exact absurd (eq_of_after? hafter) (h rest)

theorem readCall_apply {name first : String} {rest : List String} (h : '(' ∉ name.toList) :
    readCall (Script.apply name (first :: rest)) = (name, Script.join (first :: rest)) := by
  have hchars : (Script.apply name (first :: rest)).toList =
      name.toList ++ '(' :: ' ' :: ((Script.join (first :: rest)).toList ++ [' ', ')']) := by
    simp [Script.apply]
  have hdrop : (name.toList ++
      '(' :: ' ' :: ((Script.join (first :: rest)).toList ++ [' ', ')'])).drop
        (name.toList.length + 2) = (Script.join (first :: rest)).toList ++ [' ', ')'] := by
    rw [List.drop_append]
    simp
  have hinner : ((Script.join (first :: rest)).toList ++ [' ', ')']).rdrop 2 =
      (Script.join (first :: rest)).toList :=
    List.rdrop_append_length
  simp only [readCall, hchars, takeWhile_append_stop h, hdrop, hinner, String.ofList_toList]

theorem BinaryOp.ofMethod?_method (op : BinaryOp) : ofMethod? op.method = some op := by
  cases op <;> decide

theorem unquote_literal (text : String) : unquote (Script.literal text) = text := by
  have hinner : (text.toList ++ ['\'']).rdrop 1 = text.toList := List.rdrop_append_length
  simp [unquote, Script.literal, hinner]

/-- A target that starts like a literal does not start a call of a combinator. -/
theorem after?_combinator {target : String} (hliteral : startsLiteral target) {name : String}
    (hname : startsOther name) (args : List String) (stop : String) :
    after? (target ++ stop) (Script.apply name args) = none := by
  refine after?_eq_none fun rest heq => ?_
  have hother := (Settled.other (startsOther_apply hname args)).eq
  rw [heq, String.append_assoc, startsLiteral_append hliteral] at hother
  cases hother

theorem readAssignment?_assignmentText (name : String) {op : BinaryOp} (hop : op ≠ .member)
    (amount : String) :
    readAssignment? (Script.orUnknown name) (assignmentText name op amount) =
      some (op, amount) := by
  have hmethod : '(' ∉ op.method.toList := by cases op <;> decide
  have hother : startsOther op.method := by
    cases op <;> first | decide | exact absurd rfl hop
  unfold assignmentText Form.binary
  simp only [Form.accessor, Fragment.plain, if_neg hop]
  generalize Script.orUnknown name = target
  cases hleft : startsLiteral target with
  | false =>
    have hpoint : after? (target ++ ".") (Script.method target op.method [amount]) =
        some (Script.apply op.method [amount]) :=
      after?_append (target ++ ".") _
    simp [readAssignment?, hpoint, readCall_apply hmethod, BinaryOp.ofMethod?_method, Script.join]
  | true =>
    cases hright : startsLiteral amount with
    | false =>
      have hargs : after? (target ++ ", ") (Script.join [target, amount]) = some amount := by
        simpa [Script.join, String.intercalate_cons_cons] using
          after?_append (target ++ ", ") amount
      simp [readAssignment?, after?_combinator hleft hother, readCall_apply hmethod,
        BinaryOp.ofMethod?_method, hargs]
    | true =>
      have hspelling : ' ' ∉ op.spelling.toList := by cases op <;> decide
      have hpoint : after? (target ++ ".") (target ++ " " ++ op.spelling ++ " " ++ amount) =
          none := by
        refine after?_eq_none fun rest heq => ?_
        simp [← String.toList_inj] at heq
      have hblank : after? (target ++ " ") (target ++ " " ++ op.spelling ++ " " ++ amount) =
          some (op.spelling ++ " " ++ amount) := by
        simpa [String.append_assoc] using
          after?_append (target ++ " ") (op.spelling ++ " " ++ amount)
      have hword : (op.spelling ++ " " ++ amount).toList.takeWhile (· != ' ') =
          op.spelling.toList := by
        simpa using takeWhile_append_stop hspelling
      have hdrop : (op.spelling ++ " " ++ amount).toList.drop (op.spelling.toList.length + 1) =
          amount.toList := by
        simp [List.drop_append]
      simp only [Bool.and_self, if_true, readAssignment?, hpoint, hblank, hword, hdrop,
        String.ofList_toList, BinaryOp.ofSpelling?_spelling, Option.map_some]

/-- What an update needs to be read back. -/
def CounterUpdate.Readable : CounterUpdate → Prop
  | .increment | .decrement => True
  | .assign op amount => op ≠ .member ∧ Uncut amount ∧ Balanced amount
  | .add amount => Uncut amount ∧ ∀ c ∈ amount.toList.head?, c ≠ '(' ∧ c ≠ '\''

/-- The entry of an update. -/
def updateSetting (name : String) : CounterUpdate → List (String × String)
  | .increment => []
  | .decrement => [("update", Script.literal UnaryOp.decrement.spelling)]
  | .assign op amount =>
    [("update", "( " ++ Script.braced [name] ++ " ) => " ++ assignmentText name op amount)]
  | .add amount => [("update", amount)]

/-- The entries of a counting loop. -/
def CounterLoop.settings (loop : CounterLoop) : List (String × String) :=
  [("start", loop.start), ("end", loop.limit)] ++
    (if loop.name = "i" then [] else [("name", Script.literal loop.name)]) ++
    (if loop.type = "int" then [] else [("type", Script.literal loop.type)]) ++
    (if loop.comparison = .lessThan then []
      else [("condition", Script.literal loop.comparison.spelling)]) ++
    updateSetting loop.name loop.update

theorem readUpdate?_updateSetting (name : String) {update : CounterUpdate}
    (h : update.Readable) :
    readUpdate? name ((updateSetting name update).lookup "update") = some update := by
  cases update with
  | increment => rfl
  | decrement => rfl
  | assign op amount =>
    have hafter := after?_append ("( " ++ Script.braced [name] ++ " ) => ")
      (assignmentText name op amount)
    have hne : "( " ++ Script.braced [name] ++ " ) => " ++ assignmentText name op amount ≠
        Script.literal UnaryOp.decrement.spelling := by
      intro heq
      have hhead := congrArg (fun text => text.toList.head?) heq
      simp [Script.literal] at hhead
    simp [updateSetting, readUpdate?, hne, hafter, readAssignment?_assignmentText name h.1]
  | add amount =>
    obtain ⟨-, hhead⟩ := h
    have hne : amount ≠ Script.literal UnaryOp.decrement.spelling := by
      rintro rfl
      exact (hhead '\'' rfl).2 rfl
    have hafter : after? ("( " ++ Script.braced [name] ++ " ) => ") amount = none := by
      refine after?_eq_none fun rest heq => ?_
      refine (hhead '(' ?_).1 rfl
      rw [heq]
      simp
    simp [updateSetting, readUpdate?, hne, hafter]

namespace CounterLoop

variable {loop : CounterLoop}

theorem config_toCounting : loop.toCounting.config = entryTexts loop.settings := by
  have hupdate : Counting.updateEntry loop.name (loop.update.toUpdate loop.name) =
      entryTexts (updateSetting loop.name loop.update) := by
    cases loop.update <;> rfl
  have happend (settings more : List (String × String)) :
      entryTexts (settings ++ more) = entryTexts settings ++ entryTexts more :=
    List.map_append
  have hoptional (elided : Prop) [Decidable elided] (key value : String) :
      entryTexts (if elided then [] else [(key, value)]) =
        if elided then [] else [Script.entry key value] := by
    split <;> rfl
  simp only [settings, happend, hoptional, ← hupdate]
  rfl

/-- What is listed is found, and what is not listed is a default. -/
theorem lookup_settings :
    loop.settings.lookup "start" = some loop.start ∧
    loop.settings.lookup "end" = some loop.limit ∧
    (loop.settings.lookup "name").elim "i" unquote = loop.name ∧
    (loop.settings.lookup "type").elim "int" unquote = loop.type ∧
    (loop.settings.lookup "condition").elim BinaryOp.lessThan.spelling unquote =
      loop.comparison.spelling ∧
    loop.settings.lookup "update" = (updateSetting loop.name loop.update).lookup "update" := by
  have hoptional (elided : Prop) [Decidable elided] (key other value : String) :
      (if elided then [] else [(other, value)]).lookup key =
        if key = other ∧ ¬ elided then some value else none := by
    by_cases helided : elided <;> by_cases hkey : key = other <;> simp [helided, hkey]
  have hupdate {key : String} (hkey : key ≠ "update") (name : String) :
      (updateSetting name loop.update).lookup key = none := by
    cases loop.update <;> simp [updateSetting, hkey]
  have hbounds (key : String) :
      [("start", loop.start), ("end", loop.limit)].lookup key =
        if key = "start" then some loop.start
        else if key = "end" then some loop.limit
        else none := by
    by_cases hs : key = "start"
    · simp [hs]
    · have hstart : (key == "start") = false := beq_eq_false_iff_ne.mpr hs
      by_cases he : key = "end"
      · simp [List.lookup_cons, he]
      · have hend : (key == "end") = false := beq_eq_false_iff_ne.mpr he
        simp [List.lookup_cons, hstart, hend, hs, he]
  simp only [settings, List.lookup_append, hbounds, hoptional]
  refine ⟨by simp, by simp, ?_, ?_, ?_, by simp⟩
  · by_cases hname : loop.name = "i" <;> simp [hname, hupdate, unquote_literal]
  · by_cases htype : loop.type = "int" <;> simp [htype, hupdate, unquote_literal]
  · by_cases hcomparison : loop.comparison = .lessThan <;>
      simp [hcomparison, hupdate, unquote_literal]

theorem separable_settings (hname : PlainText loop.name) (htype : PlainText loop.type)
    (hstart : Uncut loop.start) (hlimit : Uncut loop.limit) (hupdate : loop.update.Readable) :
    Separable loop.settings := by
  have hoptional (elided : Prop) [Decidable elided] {key value : String} (hkey : Uncut key)
      (hblank : ' ' ∉ key.toList) (hvalue : Uncut value) :
      Separable (if elided then [] else [(key, Script.literal value)]) := by
    split
    · exact List.forall_mem_nil _
    · exact List.forall_mem_singleton.mpr ⟨hkey, hblank, hvalue.literal⟩
  have hcomparison : Uncut loop.comparison.spelling := by
    cases loop.comparison <;> exact .colonless (by decide) rfl
  have hlast : Separable (updateSetting loop.name loop.update) := by
    have hkey : Uncut "update" := .colonless (by decide) rfl
    cases hcase : loop.update with
    | increment => exact List.forall_mem_nil _
    | decrement =>
      have hvalue : Uncut (Script.literal UnaryOp.decrement.spelling) := .colonless (by decide) rfl
      exact List.forall_mem_singleton.mpr ⟨hkey, by decide, hvalue⟩
    | add amount =>
      rw [hcase] at hupdate
      exact List.forall_mem_singleton.mpr ⟨hkey, by simp, hupdate.1⟩
    | assign op amount =>
      rw [hcase] at hupdate
      obtain ⟨-, huncut, hbalanced⟩ := hupdate
      have hparams : Uncut ("( " ++ Script.braced [loop.name] ++ " ) => ") :=
        .between [')'] (by decide) (.colonless (by decide) rfl)
          (.braced (List.forall_mem_singleton.mpr hname.bracketless.balanced))
          (.colonless (by decide) rfl)
      have hcode : Uncut (assignmentText loop.name op amount) :=
        Form.uncut_binary op hname.uncut.orUnknown huncut hname.bracketless.balanced.orUnknown
          hbalanced
      exact List.forall_mem_singleton.mpr ⟨hkey, by simp, hparams.append hcode⟩
  have hbounds : Separable [("start", loop.start), ("end", loop.limit)] := by
    have hs : Uncut "start" := .colonless (by decide) rfl
    have he : Uncut "end" := .colonless (by decide) rfl
    simp [Separable, hs, he, hstart, hlimit]
  simp only [Separable, settings, List.forall_mem_append]
  exact ⟨⟨⟨⟨hbounds, hoptional _ (.colonless (by decide) rfl) (by decide) hname.uncut⟩,
    hoptional _ (.colonless (by decide) rfl) (by decide) htype.uncut⟩,
    hoptional _ (.colonless (by decide) rfl) (by decide) hcomparison⟩, hlast⟩

/-- A loop is read back from its text. -/
theorem readCounting?_text (hname : PlainText loop.name) (htype : PlainText loop.type)
    (hstart : Uncut loop.start) (hlimit : Uncut loop.limit) (hupdate : loop.update.Readable)
    (depth : Nat) (body : String) :
    readCounting? (loop.toCounting.text depth body) = some loop := by
  have hseparable := separable_settings hname htype hstart hlimit hupdate
  have hobject := readObject_braced hseparable (by simp [settings])
  have htext : loop.toCounting.text depth body =
      "Loop( " ++ (Script.braced loop.toCounting.config ++ (", " ++
        Script.callback ("( " ++ Script.braced [loop.name] ++ " )") depth body ++ " )")) := by
    simp [Counting.text, Script.apply, Script.join, String.intercalate_cons_cons,
      String.append_assoc, toCounting]
  obtain ⟨hstart, hlimit, hname, htype, hcomparison, hlast⟩ := @lookup_settings loop
  rw [htext, readCounting?, after?_append, config_toCounting]
  simp only [Option.bind_eq_bind, Option.bind_some, String.toList_append, hobject, hstart, hlimit,
    hname, htype, hcomparison, hlast, readUpdate?_updateSetting loop.name hupdate,
    BinaryOp.ofSpelling?_spelling]

end CounterLoop

end ShaderScript
