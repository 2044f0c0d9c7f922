import ShaderScript.Proofs.Indentation
import ShaderScript.Proofs.TopLevel

/-!
# Modules and closures

A closure has the imports and the globals of the module of the same program. Its body is that of the
module without the word `export`, one tab further to the right; only the line of a dispatcher stays
where it was, because it is not the first one of its statement. So the body of a closure is the
indented body of the module exactly if no two functions have the same name.
-/

namespace ShaderScript

open Script

/-! ## Whole lines -/

/-- Read from the start of a line to the start of another, the text is indented to the other one. -/
def Indents (text indented : String) : Prop :=
  ∀ rest, indentFrom true (text.toList ++ rest) = indented.toList ++ indentFrom true rest

namespace Indents

variable {text indented other further : String}

theorem append (h : Indents text indented) (hother : Indents other further) :
    Indents (text ++ other) (indented ++ further) := by
  intro rest
  rw [String.toList_append, String.toList_append, List.append_assoc, List.append_assoc, h, hother]

theorem joined {texts indenteds : List String} (h : List.Forall₂ Indents texts indenteds) :
    Indents (String.join texts) (String.join indenteds) := by
  induction h with
  | nil => exact fun _ => rfl
  | cons hfirst hrest ih => simpa using hfirst.append ih

theorem newline : Indents "\n" "\n" :=
  fun _ => rfl

theorem gap (previous : Option Node) (node : Node) :
    Indents (Body.gap previous node) (Body.gap previous node) := by
  unfold Body.gap
  split
  · exact fun _ => rfl
  · exact newline
  · split
    · exact fun _ => rfl
    · exact newline

/-- A text that is laid out and starts within a line. -/
theorem line {uniforms : List (String × String)} {text : View → String} (reference : Bool)
    (h : Laid Unbroken uniforms text) (hstart : Starts (· ≠ '\n') (text ⟨reference, 0⟩)) :
    Indents (text ⟨reference, 0⟩ ++ "\n") ("\t" ++ text ⟨reference, 1⟩ ++ "\n") := by
  intro rest
  obtain ⟨c, chars, hchars, hne⟩ := hstart.exists_cons
  have hfresh : indentFrom true ((text ⟨reference, 0⟩).toList ++ '\n' :: rest) =
      '\t' :: indentFrom false ((text ⟨reference, 0⟩).toList ++ '\n' :: rest) := by
    simp [hchars, indentFrom, hne]
  have hwithin := h.indentFrom_eq reference 0 ('\n' :: rest)
  simp only [String.toList_append, List.append_assoc]
  exact hfresh.trans (congrArg ('\t' :: ·) hwithin)

end Indents

/-! ## Statements -/

/-- A tab before dispatchers. -/
def dispatcherTab : FunctionConstant → String
  | .function .. => ""
  | .dispatcher .. => "\t"

theorem unbroken_suffix (text : String) (h : Unbroken text) : Unbroken (text ++ immutableSuffix) :=
  unbroken_append.mpr ⟨h, by decide⟩

theorem starts_declaration (reference : Bool) (depth : Nat) (constant : FunctionConstant) :
    Starts (· ≠ '\n') (constant.declaration reference depth) := by
  have hconst : Starts (· ≠ '\n') "const " := .fixed (fun _ hc => hc) (by decide)
  cases constant with
  | function name declared =>
    rw [FunctionConstant.declaration]
    exact ((((hconst.append _).append _).append _).append _).append _
  | dispatcher name members =>
    rw [FunctionConstant.declaration]
    exact (((hconst.append _).append _).append _).append _

section Statements

variable {U : String × String → Prop} {node : Node} (h : node.Fits Unbroken U)
include h

theorem indents_constant (before after : List Node) (reference : Bool) :
    ∀ constant ∈ functionConstants before node after,
      Indents (constant.declaration reference 0 ++ "\n")
        ("\t" ++ constant.declaration reference 1 ++ "\n") := by
  intro constant hmem
  have hlaid := FunctionConstant.laid unbroken_suffix h before after 0 constant hmem
  have hline := Indents.line reference hlaid (starts_declaration _ _ constant)
  simpa only [Nat.add_zero] using hline

theorem indents_statement (reference : Bool) :
    Indents ((emit ⟨reference, 0, false, false⟩ node).text ++ ";" ++ "\n")
      ("\t" ++ ((emit ⟨reference, 1, false, false⟩ node).text ++ ";") ++ "\n") := by
  have hsemicolon : Unbroken ";" := by decide
  have hlaid := (h.draws (topLevel 0)).text.after hsemicolon
  have hfirst : ∀ text ∈ node.strings, ∀ c ∈ text.toList.head?, c ≠ '\n' := by
    rintro text htext c hc rfl
    exact h.strings text htext (List.mem_of_mem_head? hc)
  have hstart := starts_emit (fun _ hc => hc) hfirst ((topLevel 0).seen ⟨reference, 0⟩)
  have hline := Indents.line reference hlaid (hstart.append ";")
  simpa only [Context.seen, topLevel, Nat.add_zero] using hline

theorem indents_declarations (before after : List Node) (reference : Bool) :
    Indents ("\n\n".intercalate (declarations reference 0 (fun _ => "") before node after) ++ "\n")
      ("\t" ++ "\n\n".intercalate (declarations reference 1 dispatcherTab before node after) ++
        "\n") := by
  have hconstants := indents_constant h before after reference
  have hstatement := indents_statement h reference
  cases node with
  | function declared =>
    obtain ⟨name, hone | ⟨members, htwo⟩⟩ := functionConstants_cases before after declared
    · rw [hone, List.forall_mem_singleton] at hconstants
      simpa [declarations, hone, dispatcherTab] using hconstants
    · rw [htwo, List.forall_mem_cons, List.forall_mem_singleton] at hconstants
      have hbreaks : "\n\n" = "\n" ++ "\n" := rfl
      have hboth := hconstants.1.append (Indents.newline.append hconstants.2)
      simp only [declarations, htwo, dispatcherTab, List.map_cons, List.map_nil,
        String.intercalate_cons_cons, String.intercalate_singleton, hbreaks, String.empty_append]
      simpa only [String.append_assoc] using hboth
  | _ => simpa [declarations, functionConstants] using hstatement

end Statements

/-- The body of a module without `export`, line by line one tab further to the right. -/
theorem Program.indentLines_bodyText (program : Program) (reference : Bool)
    (h : ∀ text ∈ program.strings, Unbroken text) :
    indentLines (program.bodyText reference 0 fun _ => "") =
      program.bodyText reference 1 dispatcherTab := by
  have hplaced : ∀ place ∈ walk [] program.body,
      Indents (placedText reference 0 (fun _ => "") place)
        (placedText reference 1 dispatcherTab place) := by
    rintro ⟨before, node, after⟩ hplace
    have hfits : node.Fits Unbroken fun _ => True :=
      ⟨fun text ht => h text (List.mem_flatMap.mpr ⟨node, mem_of_mem_walk hplace, ht⟩),
        fun _ _ _ => trivial⟩
    have hstatement := (Indents.gap before.getLast? node).append
      (indents_declarations hfits before after reference)
    simpa [placedText, tabs, String.append_assoc] using hstatement
  have hindents : Indents (program.bodyText reference 0 fun _ => "")
      (program.bodyText reference 1 dispatcherTab) :=
    Indents.newline.append (.joined (forall₂_map hplaced))
  rw [← String.toList_inj, toList_indentLines]
  simpa [indentFrom] using hindents []

/-! ## Dispatchers -/

/-- The length of the words before constants. -/
def leadLength (lead : FunctionConstant → String) (constants : List FunctionConstant) : Nat :=
  (String.join (constants.map lead)).length

theorem leadLength_cons (lead : FunctionConstant → String) (constant : FunctionConstant)
    (constants : List FunctionConstant) :
    leadLength lead (constant :: constants) =
      (lead constant).length + leadLength lead constants := by
  simp [leadLength]

theorem leadLength_append (lead : FunctionConstant → String)
    (constants others : List FunctionConstant) :
    leadLength lead (constants ++ others) = leadLength lead constants + leadLength lead others := by
  simp [leadLength, String.join_append]

theorem length_join_leads (separator : String) (lead text : FunctionConstant → String)
    (constants : List FunctionConstant) :
    (String.join (constants.map fun constant =>
        separator ++ (lead constant ++ text constant))).length =
      (String.join (constants.map fun constant => separator ++ text constant)).length +
        leadLength lead constants := by
  induction constants with
  | nil => rfl
  | cons constant constants ih =>
    simp only [List.map_cons, String.join_cons, String.length_append, ih, leadLength_cons]
    omega

theorem length_intercalate_leads (separator : String) (lead text : FunctionConstant → String)
    (constants : List FunctionConstant) :
    (separator.intercalate (constants.map fun constant => lead constant ++ text constant)).length =
      (separator.intercalate (constants.map fun constant => "" ++ text constant)).length +
        leadLength lead constants := by
  cases constants with
  | nil => rfl
  | cons constant constants =>
    have hrest := length_join_leads separator lead text constants
    simp only [List.map_cons, intercalate_cons, List.map_map, Function.comp_def,
      String.length_append, String.empty_append, hrest, leadLength_cons]
    omega

theorem length_placedText (reference : Bool) (depth : Nat) (lead : FunctionConstant → String)
    (before : List Node) (node : Node) (after : List Node) :
    (placedText reference depth lead (before, node, after)).length =
      (placedText reference depth (fun _ => "") (before, node, after)).length +
        leadLength lead (functionConstants before node after) := by
  have hdeclarations : ("\n\n".intercalate
      (declarations reference depth lead before node after)).length =
        ("\n\n".intercalate (declarations reference depth (fun _ => "") before node after)).length +
          leadLength lead (functionConstants before node after) := by
    unfold declarations
    cases functionConstants before node after with
    | nil => rfl
    | cons constant constants => exact length_intercalate_leads ..
  simp only [placedText, String.length_append, hdeclarations]
  omega

theorem length_placedTexts (reference : Bool) (depth : Nat) (lead : FunctionConstant → String)
    (places : List (List Node × Node × List Node)) :
    (String.join (places.map (placedText reference depth lead))).length =
      (String.join (places.map (placedText reference depth fun _ => ""))).length +
        leadLength lead (places.flatMap fun (before, node, after) =>
          functionConstants before node after) := by
  induction places with
  | nil => rfl
  | cons place places ih =>
    obtain ⟨before, node, after⟩ := place
    have hplace := length_placedText reference depth lead before node after
    simp only [List.map_cons, List.flatMap_cons, String.join_cons, String.length_append,
      leadLength_append, ih]
    omega

/-- Words before constants make a body longer, by as much as they are long. -/
theorem Program.length_bodyText (program : Program) (reference : Bool) (depth : Nat)
    (lead : FunctionConstant → String) :
    (program.bodyText reference depth lead).length =
      (program.bodyText reference depth fun _ => "").length +
        leadLength lead (walkConstants [] program.body) := by
  simp only [bodyText, String.length_append, length_placedTexts reference depth lead, walkConstants]
  omega

theorem declarations_congr {reference : Bool} {depth : Nat} {lead other : FunctionConstant → String}
    {before after : List Node} {node : Node}
    (h : ∀ constant ∈ functionConstants before node after, lead constant = other constant) :
    declarations reference depth lead before node after =
      declarations reference depth other before node after := by
  unfold declarations
  split
  · rfl
  · exact List.map_congr_left fun constant hc => by rw [h constant hc]

theorem Program.bodyText_congr {program : Program} {reference : Bool} {depth : Nat}
    {lead other : FunctionConstant → String}
    (h : ∀ constant ∈ walkConstants [] program.body, lead constant = other constant) :
    program.bodyText reference depth lead = program.bodyText reference depth other := by
  have hplaced : (walk [] program.body).map (placedText reference depth lead) =
      (walk [] program.body).map (placedText reference depth other) := by
    refine List.map_congr_left fun place hplace => ?_
    obtain ⟨before, node, after⟩ := place
    simp only [placedText]
    rw [declarations_congr fun constant hc => h constant (List.mem_flatMap.mpr ⟨_, hplace, hc⟩)]
  rw [bodyText, bodyText, hplaced]

/-- There is no dispatcher exactly if no two functions have the same name. -/
theorem Program.forall_dispatcherTab_iff (program : Program) :
    (∀ constant ∈ walkConstants [] program.body, dispatcherTab constant = "") ↔
      (functionNames program.body).Nodup := by
  have hlisted := listedFor?_walkConstants (List.nil_append program.body).symm
  rw [List.nodup_iff_count_le_one]
  constructor
  · intro hnone name
    by_contra hmany
    have hmem : name ∈ functionNames program.body := List.count_pos_iff.mp (by omega)
    have hone : (functionNames program.body).count name ≠ 1 := by omega
    have hsome := hlisted name
    rw [if_pos ⟨hmem, hone⟩] at hsome
    obtain ⟨constant, hconstant, hlist⟩ := List.mem_filterMap.mp (hsome ▸ List.mem_singleton_self _)
    cases constant with
    | function => cases hlist
    | dispatcher =>
      have htab := hnone _ hconstant
      simp [dispatcherTab] at htab
  · intro hcount constant hconstant
    cases constant with
    | function => rfl
    | dispatcher name members =>
      have hmem : members ∈
          (walkConstants [] program.body).filterMap (FunctionConstant.listedFor? name) :=
        List.mem_filterMap.mpr ⟨_, hconstant, if_pos rfl⟩
      rw [hlisted name] at hmem
      have hname := hcount name
      split at hmem
      · rename_i hdouble
        have hsome := List.count_pos_iff.mpr hdouble.1
        omega
      · cases hmem

theorem leadLength_eq_zero {lead : FunctionConstant → String} {constants : List FunctionConstant}
    (h : leadLength lead constants = 0) : ∀ constant ∈ constants, lead constant = "" := by
  induction constants with
  | nil => exact List.forall_mem_nil _
  | cons constant constants ih =>
    rw [leadLength_cons, Nat.add_eq_zero_iff] at h
    rw [List.forall_mem_cons]
    exact ⟨by simpa using h.1, ih h.2⟩

/-- The closure of a program against its module, where no string of the program has a line break.
They import and declare the same names. The body of the closure is that of the module without
`export`, with a tab before every line that is not empty, except that a dispatcher gets no tab. So
it is the indented body of the module without `export` exactly if no two functions have the same
name. -/
theorem closure_wraps_module (program : Program) (reference : Bool) (revision : String)
    (hstrings : ∀ text ∈ program.strings, Unbroken text) :
    let closure := program.document ⟨true, reference, revision⟩
    let plain := program.document ⟨false, reference, revision⟩
    closure.scope.imports = plain.scope.imports ∧ closure.scope.globals = plain.scope.globals ∧
      plain.body = program.bodyText reference 0 (fun _ => "export ") ∧
      closure.body = program.bodyText reference 1 (fun _ => "") ∧
      indentLines (program.bodyText reference 0 fun _ => "") =
        program.bodyText reference 1 dispatcherTab ∧
      (closure.body = indentLines (program.bodyText reference 0 fun _ => "") ↔
        (functionNames program.body).Nodup) := by
  intro closure plain
  have hscope : closure.scope = plain.scope := program.scope_congr rfl
  have hclosure : closure.body = program.bodyText reference 1 (fun _ => "") :=
    program.body_document ⟨true, reference, revision⟩
  have hindent := program.indentLines_bodyText reference hstrings
  refine ⟨by rw [hscope], by rw [hscope], program.body_document ⟨false, reference, revision⟩,
    hclosure, hindent, ?_⟩
  rw [hindent, hclosure, ← program.forall_dispatcherTab_iff]
  constructor
  · intro hequal
    have hlength := program.length_bodyText reference 1 dispatcherTab
    rw [← hequal] at hlength
    exact leadLength_eq_zero (by omega)
  · exact fun hnone => Program.bodyText_congr fun constant hc => (hnone constant hc).symm

/-- A uniform and a function with a loop, which have no name in common. -/
theorem closure_wraps_module_with_loop :
    let program : Program := ⟨[.uniform "level" "float",
      .function ⟨"wave", "vec3", [⟨"p", "vec2", none, true⟩],
        [.loop (some (.bindings [⟨"k", "int", some (.number "0" .int), true⟩]))
            (some (.operator .lessThan (.accessor "k") (.number "4" .int)))
            (some (.unary .increment (.accessor "k") true))
            [.conditional (.operator .greaterThan (.accessor "p") (.accessor "k")) [.break] []],
          .return (some (.accessor "p"))], true⟩]⟩
    (∀ text ∈ program.strings, Unbroken text) ∧ (functionNames program.body).Nodup ∧
      (program.document ⟨true, true, "170"⟩).body =
        indentLines (program.bodyText true 0 fun _ => "") := by
  intro program
  have hstrings : ∀ text ∈ program.strings, Unbroken text := by decide +kernel
  have hnames : (functionNames program.body).Nodup := by decide
  obtain ⟨-, -, -, -, -, hiff⟩ := closure_wraps_module program true "170" hstrings
  exact ⟨hstrings, hnames, hiff.mpr hnames⟩

/-- Two functions of one name: the line of their dispatcher has no tab. -/
theorem dispatcher_line_not_indented :
    let program : Program :=
      ⟨[.function ⟨"f", "float", [], [], true⟩, .function ⟨"f", "float", [], [], true⟩]⟩
    (∀ text ∈ program.strings, Unbroken text) ∧
      (program.document ⟨true, false, "170"⟩).body =
        "\n\tconst f_0 = /*#__PURE__*/ Fn( () => \x7b\n\n\n\n\t\x7d" ++
          " , \x7b return: 'float' \x7d );\n" ++
        "\n\tconst f_1 = /*#__PURE__*/ Fn( () => \x7b\n\n\n\n\t\x7d" ++
          " , \x7b return: 'float' \x7d );\n" ++
        "\nconst f = /*#__PURE__*/ overloadingFn( [ f_0, f_1 ] );\n" ∧
      (program.document ⟨true, false, "170"⟩).body ≠
        indentLines (program.bodyText false 0 fun _ => "") := by
  intro program
  exact ⟨by decide +kernel, by decide +kernel, by decide +kernel⟩

end ShaderScript
