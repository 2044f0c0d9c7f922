import ShaderScript.Proofs.Layout

/-!
# Indentation

A tab more at the margin of a sheet is a tab more before every line that is not empty. So a text
that is laid out without line breaks in its strings can be indented line by line: reading it from
within a line, and reading on after it, is the same as laying it out one tab further to the right.
-/

namespace ShaderScript

open Script

/-! ## Lines -/

/-- A tab before every line that is not empty. -/
def indentLines (text : String) : String :=
  String.ofList (['\n'].intercalate ((text.toList.splitOn '\n').map fun line =>
    if line.isEmpty then [] else '\t' :: line))

/-- The same character by character; `fresh` says whether a line starts here. -/
def indentFrom (fresh : Bool) : List Char → List Char
  | [] => []
  | c :: rest =>
    if c = '\n' then '\n' :: indentFrom true rest
    else if fresh then '\t' :: c :: indentFrom false rest
    else c :: indentFrom false rest

theorem intercalate_splitOn_indent (chars : List Char) :
    let indent (line : List Char) := if line.isEmpty then [] else '\t' :: line
    ['\n'].intercalate ((chars.splitOn '\n').map indent) = indentFrom true chars ∧
      ∃ first rest, chars.splitOn '\n' = first :: rest ∧
        ['\n'].intercalate (first :: rest.map indent) = indentFrom false chars := by
  intro indent
  induction chars with
  | nil => exact ⟨rfl, [], [], rfl, rfl⟩
  | cons c chars ih =>
    obtain ⟨hfresh, first, rest, hsplit, hwithin⟩ := ih
    simp only [List.splitOn] at hsplit hfresh ⊢
    rw [List.splitOnP_cons_eq_if_modifyHead, hsplit]
    rw [hsplit] at hfresh
    by_cases hc : c = '\n'
    · simp [hc, indentFrom, ← hfresh, indent, List.intercalate_cons_cons]
    · cases rest with
      | nil => simp [hc, indentFrom, ← hwithin, indent]
      | cons second rest => simp [hc, indentFrom, ← hwithin, indent, List.intercalate_cons_cons]

theorem toList_indentLines (text : String) :
    (indentLines text).toList = indentFrom true text.toList := by
  rw [indentLines, String.toList_ofList]
  exact (intercalate_splitOn_indent text.toList).1

/-! ## Reading on after a line -/

theorem indentFrom_unbroken {chars : List Char} (h : '\n' ∉ chars) (rest : List Char) :
    indentFrom false (chars ++ rest) = chars ++ indentFrom false rest := by
  induction chars with
  | nil => rfl
  | cons c chars ih =>
    obtain ⟨hc, hchars⟩ := not_or.mp (List.mem_cons.not.mp h)
    simp [indentFrom, Ne.symm hc, ih hchars]

theorem indentFrom_breaks (fresh : Bool) (count : Nat) (rest : List Char) :
    indentFrom fresh ((breaks (count + 1)).toList ++ rest) =
      (breaks (count + 1)).toList ++ indentFrom true rest := by
  induction count generalizing fresh with
  | zero => simp [breaks, indentFrom]
  | succ count ih =>
    have hnext := ih true
    simp only [breaks, String.toList_ofList] at hnext ⊢
    rw [List.replicate_succ, List.cons_append, indentFrom, if_pos rfl, hnext, List.cons_append]

/-- A line that is not empty gets a tab. -/
theorem indentFrom_line {chars : List Char} (hne : chars ≠ []) (h : '\n' ∉ chars)
    (rest : List Char) :
    indentFrom true (chars ++ rest) = '\t' :: chars ++ indentFrom false rest := by
  cases chars with
  | nil => exact absurd rfl hne
  | cons c chars =>
    obtain ⟨hc, hchars⟩ := not_or.mp (List.mem_cons.not.mp h)
    simp [indentFrom, Ne.symm hc, indentFrom_unbroken hchars]

/-! ## Sheets -/

theorem unbroken_tabs (depth : Nat) : Unbroken (tabs depth) := by
  simp [Unbroken, tabs]

theorem unbroken_resource? {type : String} {resource : String × String}
    (h : Form.resource? type = some resource) : Unbroken resource.1 ∧ Unbroken resource.2 := by
  unfold Form.resource? at h
  split_ifs at h <;> cases h <;> decide

theorem unbroken_initializer (reference : Bool) {name type : String} (hname : Unbroken name)
    (htype : Unbroken type) : Unbroken (initializer reference name type) := by
  unfold initializer Form.uniformValue
  split
  · simp only [apply, join, literal, bracketed, String.intercalate_cons_cons,
      String.intercalate_singleton, unbroken_append, hname, htype]
    decide
  · split
    · rename_i constructor className hresource
      obtain ⟨hconstructor, hclass⟩ := unbroken_resource? hresource
      simp only [apply, join, String.intercalate_singleton, unbroken_append, hconstructor, hclass]
      decide
    · simp only [apply, join, literal, String.intercalate_singleton, unbroken_append, htype]
      decide

namespace Sheet

/-- One tab more at the margin is one tab more before every line. -/
theorem indentFrom_render {sheet : Sheet}
    (h : ∀ string ∈ sheet.flatMap Piece.strings, Unbroken string) {value : String → String → String}
    (hvalue : ∀ name type, Unbroken name → Unbroken type → Unbroken (value name type))
    (margin : Nat) (rest : List Char) :
    indentFrom false ((sheet.render value margin).toList ++ rest) =
      (sheet.render value (margin + 1)).toList ++ indentFrom false rest := by
  induction sheet with
  | nil => rfl
  | cons piece sheet ih =>
    rw [List.flatMap_cons, List.forall_mem_append] at h
    obtain ⟨hpiece, hsheet⟩ := h
    have hrest := ih hsheet
    simp only [render_cons, String.toList_append, List.append_assoc]
    cases piece with
    | text content =>
      have hcontent : Unbroken content := hpiece content List.mem_cons_self
      simp only [Piece.render]
      rw [indentFrom_unbroken hcontent, hrest]
    | uniform name type =>
      have hconst : Unbroken "const " := by decide
      have hequals : Unbroken " = " := by decide
      have hname : Unbroken name := hpiece name (by simp [Piece.strings])
      have htype : Unbroken type := hpiece type (by simp [Piece.strings])
      have hdeclaration : Unbroken ("const " ++ name ++ " = " ++ value name type) := by
        simp only [unbroken_append]
        exact ⟨⟨⟨hconst, hname⟩, hequals⟩, hvalue name type hname htype⟩
      simp only [Piece.render]
      rw [indentFrom_unbroken hdeclaration, hrest]
    | line blanks depth =>
      have hline : (tabs (margin + depth + 1)).toList ≠ [] := by simp [tabs]
      have htabs : margin + 1 + depth = margin + depth + 1 := by omega
      simp only [Piece.render, String.toList_append, List.append_assoc]
      rw [indentFrom_breaks, indentFrom_line hline (unbroken_tabs _), hrest, htabs]
      simp [tabs, List.replicate_succ]
    | close blanks depth =>
      have hbrace : Unbroken "\x7d" := by decide
      have hline : (tabs (margin + depth) ++ "\x7d").toList ≠ [] := by simp
      have hclose : Unbroken (tabs (margin + depth) ++ "\x7d") :=
        unbroken_append.mpr ⟨unbroken_tabs _, hbrace⟩
      have htabs : margin + 1 + depth = margin + depth + 1 := by omega
      simp only [Piece.render, String.append_assoc]
      rw [String.toList_append, List.append_assoc, indentFrom_breaks, indentFrom_line hline hclose,
        hrest, htabs]
      simp [tabs, List.replicate_succ]

end Sheet

theorem Laid.indentFrom_eq {uniforms : List (String × String)} {text : View → String}
    (h : Laid Unbroken uniforms text) (reference : Bool) (margin : Nat) (rest : List Char) :
    indentFrom false ((text ⟨reference, margin⟩).toList ++ rest) =
      (text ⟨reference, margin + 1⟩).toList ++ indentFrom false rest := by
  obtain ⟨sheet, hstrings, -, hread⟩ := h
  rw [hread, hread]
  exact Sheet.indentFrom_render (fun string hs => (hstrings string hs).elim id id)
    (fun _ _ => unbroken_initializer reference) margin rest

/-! ## The first character -/

/-- The text has a first character, and it is of the given kind. -/
def Starts (P : Char → Prop) (text : String) : Prop :=
  ∃ c ∈ text.toList.head?, P c

namespace Starts

variable {P : Char → Prop} {text : String}

theorem exists_cons (h : Starts P text) : ∃ c rest, text.toList = c :: rest ∧ P c := by
  obtain ⟨c, hc, hP⟩ := h
  cases htext : text.toList with
  | nil => simp [htext] at hc
  | cons d rest =>
    rw [htext] at hc
    cases hc
    exact ⟨c, rest, rfl, hP⟩

theorem append (h : Starts P text) (other : String) : Starts P (text ++ other) := by
  obtain ⟨c, hc, hP⟩ := h
  refine ⟨c, ?_, hP⟩
  rw [String.toList_append, List.head?_append, Option.mem_def.mp hc]
  rfl

theorem method (h : Starts P text) (name : String) (args : List String) :
    Starts P (Script.method text name args) :=
  (h.append _).append _

/-- Text that may be empty, before text that is not. -/
theorem append_right {other : String} (h : ∀ c ∈ text.toList.head?, P c) (hother : Starts P other) :
    Starts P (text ++ other) := by
  cases htext : text.toList.head? with
  | some c => exact append ⟨c, htext, h c htext⟩ other
  | none =>
    have hempty : text = "" := by simpa using htext
    rwa [hempty, String.empty_append]

variable (hP : ∀ c, c ≠ '\n' → P c)
include hP

theorem fixed (h : text.toList.head?.any (· != '\n')) : Starts P text := by
  obtain ⟨c, hc, hne⟩ := (Option.any_eq_true ..).mp h
  exact ⟨c, hc, hP c (by simpa using hne)⟩

theorem orUnknown (h : ∀ c ∈ text.toList.head?, P c) : Starts P (Script.orUnknown text) := by
  unfold Script.orUnknown
  split
  · exact fixed hP (by decide)
  · rename_i hempty
    have hne : text.toList ≠ [] := by simpa using hempty
    obtain ⟨c, rest, htext⟩ := List.exists_cons_of_ne_nil hne
    exact ⟨c, by simp [htext], h c (by simp [htext])⟩

theorem apply (h : ∀ c ∈ text.toList.head?, P c) (args : List String) :
    Starts P (Script.apply text args) := by
  cases args with
  | nil => exact append_right h (fixed hP (by decide))
  | cons first rest =>
    simp only [Script.apply, String.append_assoc]
    exact append_right h ((fixed hP (by decide)).append _)

/-- A call of a function with a fixed name. -/
theorem call (h : text.toList.head?.any (· != '\n')) (args : List String) :
    Starts P (Script.apply text args) := by
  obtain ⟨c, hc, hc'⟩ := fixed hP h
  exact apply hP (fun d hd => (Option.mem_unique hc hd) ▸ hc') args

end Starts

section FirstCharacter

variable {P : Char → Prop} (hP : ∀ c, c ≠ '\n' → P c)
include hP

theorem starts_binary (op : BinaryOp) {left : Fragment} (right : Fragment)
    (h : Starts P left.text) : Starts P (Form.binary op left right).text := by
  have hmethod : op.method.toList.head?.any (· != '\n') := by cases op <;> decide
  unfold Form.binary
  split_ifs
  · exact ((h.append _).append _).append _ |>.append _
  · exact .call hP hmethod _
  · exact (h.append _).append _
  · exact h.method _ _

theorem starts_unary (op : UnaryOp) (trailing initializing : Bool) {operand : Fragment}
    (h : Starts P operand.text) : Starts P (Form.unary op trailing initializing operand).text := by
  unfold Form.unary
  cases hmethod : Form.unaryMethod? op trailing initializing with
  | none => exact h
  | some name =>
    have hname : name.toList.head?.any (· != '\n') := by
      cases op <;> cases trailing <;> cases initializing <;> cases hmethod <;> decide
    simp only
    split_ifs
    · exact .call hP hname _
    · exact h.method _ _

omit hP in
theorem starts_sampleChain {name chain : String} {args : List String}
    (h : ∀ arg ∈ args, Starts P arg) (hchain : sampleChain? name args = some chain) :
    Starts P chain := by
  obtain ⟨call, -, hmatch⟩ := Option.bind_eq_some_iff.mp hchain
  split at hmatch <;> cases hmatch
  · exact (h _ List.mem_cons_self).method _ _
  all_goals exact ((h _ List.mem_cons_self).method _ _).method _ _

theorem starts_call {name : String} (hname : ∀ c ∈ name.toList.head?, P c) {args : List Fragment}
    (h : ∀ arg ∈ args, Starts P arg.text) : Starts P (Form.call name args).text := by
  unfold Form.call
  split
  · rename_i chain hchain
    exact starts_sampleChain (List.forall_mem_map.mpr h) hchain
  · exact .apply hP hname _

/-- The text of a node is not empty. It starts with a character of the forms of text or with the
first character of a string in the node. -/
theorem starts_emit {node : Node} (h : ∀ text ∈ node.strings, ∀ c ∈ text.toList.head?, P c)
    (context : Context) : Starts P (emit context node).text := by
  induction node using Node.parts_induction generalizing context with
  | step node ih =>
  have hown : ∀ text ∈ node.ownStrings, ∀ c ∈ text.toList.head?, P c :=
    fun text ht => h text (Node.mem_strings.mpr (.inl ht))
  have hparts : ∀ part ∈ node.parts, Starts P (emit context part).text :=
    fun part hp => ih part hp (fun text ht => h text (Node.mem_strings.mpr (.inr ⟨part, hp, ht⟩)))
      context
  cases node with
  | number value kind =>
    have hkind : kind.spelling.toList.head?.any (· != '\n') := by cases kind <;> decide
    rw [emit, Form.number]
    split_ifs
    · exact .call hP hkind _
    · exact .orUnknown hP (hown value List.mem_cons_self)
  | string value =>
    rw [emit]
    exact ((Starts.fixed hP (by decide)).append _).append _
  | accessor property =>
    rw [emit]
    exact .orUnknown hP (hown property List.mem_cons_self)
  | chain object elements =>
    rw [emit]
    exact (hparts object List.mem_cons_self).append _
  | operator op left right =>
    rw [emit]
    exact starts_binary hP op _ (hparts left List.mem_cons_self)
  | unary op operand trailing =>
    obtain ⟨value, kind, rfl, he⟩ | ⟨-, he⟩ := emit_unary_cases context op operand trailing
    · have hkind : kind.spelling.toList.head?.any (· != '\n') := by cases kind <;> decide
      rw [he]
      exact .call hP hkind _
    · rw [he]
      exact starts_unary hP op trailing _ (hparts operand List.mem_cons_self)
  | ternary condition left right =>
    rw [emit]
    exact .call hP (by decide) _
  | call name args =>
    rw [emit, emitAll_eq_map]
    exact starts_call hP (hown name List.mem_cons_self) (List.forall_mem_map.mpr hparts)
  | «return» value =>
    rw [emit, emitOptional_eq_map]
    cases value with
    | none =>
      have hreturn : Starts P "return" := .fixed hP (by decide)
      exact hreturn
    | some value => exact (Starts.fixed hP (by decide)).append _
  | «break» | «continue» | discard =>
    rw [emit]
    exact .fixed hP (by decide)
  | bindings declarators =>
    rw [emit]
    exact (Starts.fixed hP (by decide)).append _
  | uniform name type | varying name type =>
    rw [emit]
    exact (((Starts.fixed hP (by decide)).append _).append _).append _
  | function | unknown =>
    have hunknown : Starts P unknownStatement := .fixed hP (by decide)
    rw [emit]
    exact hunknown
  | conditional condition body alternates =>
    rw [emit]
    exact (Starts.call hP (by decide) _).append _
  | switch discriminant cases =>
    rw [emit]
    exact (((Starts.call hP (by decide) _).append _).append _).append _
  | loop initial condition afterthought body =>
    cases hcount : Counting.ofLoop? initial condition afterthought with
    | none =>
      rw [emit_general hcount]
      exact ((((Starts.fixed hP (by decide)).append _).append _).append _).append _
    | some counting =>
      rw [emit_counting hcount]
      exact .call hP (by decide) _

end FirstCharacter

end ShaderScript
