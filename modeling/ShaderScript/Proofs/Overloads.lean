import ShaderScript.Proofs.Constants
import ShaderScript.Proofs.ImportSoundness

/-!
# Overload groups

What becomes of a function is decided by the functions before and after it. One that has its name
for itself keeps it. Of several functions of one name each gets the number of those before it, and
the last one, and no other, is followed by a dispatcher over all of them. The text of a document is
made of exactly these constants and of the statements that are no functions; and over a whole
program the numbered constants of a name are the members that its one dispatcher lists.
-/

namespace ShaderScript

open Script

/-- A constant that the functions of a program become. -/
inductive FunctionConstant where
  /-- A function under the given name. -/
  | function (name : String) (declaration : FunctionDecl Node)
  /-- The dispatcher of the functions of a name. -/
  | dispatcher (name : String) (members : List String)

namespace FunctionConstant

/-- The declaration of the constant. -/
def text (options : Options) : FunctionConstant → String
  | .function name declaration =>
    options.lead ++ "const " ++ name ++ " = /*#__PURE__*/ Fn( " ++
      callback declaration.inputList options.depth (declaration.emitBody options).text ++
        declaration.layoutText ++ " );\n"
  | .dispatcher name members =>
    options.lead ++ "const " ++ name ++ " = /*#__PURE__*/ overloadingFn( [ " ++ join members ++
      " ] );\n"

/-- The name of the constant, if it holds a function that is declared with this name. -/
def boundFor? (name : String) : FunctionConstant → Option String
  | .function constant declaration => if declaration.name = name then some constant else none
  | .dispatcher .. => none

/-- The members that are listed, if the constant is a dispatcher for this name. -/
def listedFor? (name : String) : FunctionConstant → Option (List String)
  | .function .. => none
  | .dispatcher dispatched members => if dispatched = name then some members else none

end FunctionConstant

/-! ## Statements one by one -/

/-- The constants of a statement that stands between others. -/
def functionConstants (before : List Node) (node : Node) (after : List Node) :
    List FunctionConstant :=
  match node with
  | .function declaration =>
    let name := declaration.name
    let size := (functionNames (before ++ node :: after)).count name
    if size = 1 then [.function name declaration]
    else
      .function (Overload.memberName name ((functionNames before).count name)) declaration ::
        if name ∈ functionNames after then []
        else [.dispatcher name ((List.range size).map (Overload.memberName name))]
  | _ => []

/-- The text of a statement: its constants with a blank line between them, or what is emitted for a
statement that is no function. -/
def statementText (options : Options) (before : List Node) (node : Node) (after : List Node) :
    String :=
  match functionConstants before node after with
  | [] => (emit (Section.context options) node).text ++ ";\n"
  | constants => "\n".intercalate (constants.map (FunctionConstant.text options))

/-- Every statement, with those before and after it. -/
def walk : (before : List Node) → List Node → List (List Node × Node × List Node)
  | _, [] => []
  | before, node :: after => (before, node, after) :: walk (before ++ [node]) after

theorem functionNames_append (before after : List Node) :
    functionNames (before ++ after) = functionNames before ++ functionNames after := by
  simp [functionNames]

theorem count_functionNames (before after : List Node) (declaration : FunctionDecl Node) :
    (functionNames (before ++ .function declaration :: after)).count declaration.name =
      (functionNames before).count declaration.name + 1 +
        (functionNames after).count declaration.name := by
  have hnames : functionNames [.function declaration] = [declaration.name] := rfl
  rw [functionNames_append, functionNames_cons, hnames, List.count_append, List.count_append,
    List.count_singleton_self]
  omega

theorem constantText_eq (options : Options) (declaration : FunctionDecl Node)
    (overload : Option Overload) :
    declaration.constantText options overload (declaration.emitBody options).text =
      (FunctionConstant.function (declaration.constantName overload) declaration).text options :=
  rfl

theorem dispatcherText_eq (options : Options) (declaration : FunctionDecl Node) (size : Nat) :
    declaration.dispatcherText options size =
      (FunctionConstant.dispatcher declaration.name
        ((List.range size).map (Overload.memberName declaration.name))).text options := by
  have hopen : " = /*#__PURE__*/ overloadingFn( [ " =
      " = /*#__PURE__*/ " ++ ("overloadingFn" ++ ("( " ++ "[ ")) := by decide
  have hclose : " ] );\n" = " ]" ++ (" )" ++ ";\n") := by decide
  rw [FunctionDecl.dispatcherText, FunctionConstant.text, hopen, hclose]
  simp only [apply, bracketed, join, String.intercalate_singleton, String.append_assoc]

/-- The section of a statement has the text that its constants give. -/
theorem text_ofNode (options : Options) (before : List Node) (node : Node) (after : List Node) :
    (Section.ofNode options (functionNames (before ++ node :: after)) (functionNames before)
      node).text = statementText options before node after := by
  cases node with
  | function declaration =>
    have hcount := count_functionNames before after declaration
    simp only [Section.ofNode, Section.ofFunction, FunctionDecl.text, Overload.of?, Overload.isLast,
      constantText_eq, dispatcherText_eq, statementText, functionConstants]
    generalize (functionNames (before ++ .function declaration :: after)).count declaration.name =
      size at hcount
    by_cases hone : size = 1
    · simp [hone, FunctionDecl.constantName]
    have hmany : 1 < size := by omega
    by_cases hafter : declaration.name ∈ functionNames after
    · have hopen : (functionNames before).count declaration.name + 1 ≠ size := by
        have := List.count_pos_iff.mpr hafter
        omega
      simp [hone, hmany, hafter, hopen, FunctionDecl.constantName]
    · have hlast : (functionNames before).count declaration.name + 1 = size := by
        have := List.count_eq_zero.mpr hafter
        omega
      simp [hone, hmany, hafter, hlast, FunctionDecl.constantName]
  | _ => rfl

/-- The sections of statements that follow others. -/
theorem texts_sections (options : Options) {before nodes all : List Node}
    (hall : all = before ++ nodes) :
    (sections options (functionNames all) (functionNames before) before.getLast? nodes).map
        Section.text =
      (walk before nodes).map fun (before, node, after) =>
        Body.gap before.getLast? node ++ tabs options.depth ++
          statementText options before node after := by
  induction nodes generalizing before with
  | nil => rfl
  | cons node after ih =>
    have hrest := @ih (before ++ [node]) (by simpa using hall)
    rw [functionNames_append, List.getLast?_concat] at hrest
    rw [sections, walk, List.map_cons, List.map_cons, hrest, hall, text_ofNode]

/-! ## Whole programs -/

namespace Overload

/-- The constants of the functions of a name: numbered ones, unless there is only one function. -/
def members (name : String) (size : Nat) : List String :=
  if size = 1 then [name] else (List.range size).map (memberName name)

theorem length_members (name : String) (size : Nat) : (members name size).length = size := by
  unfold members
  split
  · rename_i hone
    exact hone.symm
  · simp

theorem nodup_members (name : String) (size : Nat) : (members name size).Nodup := by
  unfold members
  split
  · exact List.nodup_singleton name
  · exact List.nodup_range.map fun _ _ h => (memberName_inj h).2

end Overload

/-- A function is bound to the member that has its number. -/
theorem boundFor?_functionConstants (before after : List Node) (declaration : FunctionDecl Node)
    (name : String) :
    (functionConstants before (.function declaration) after).filterMap
        (FunctionConstant.boundFor? name) =
      if declaration.name = name then
        ((Overload.members name ((functionNames (before ++ .function declaration :: after)).count
          name))[(functionNames before).count name]?).toList
      else [] := by
  have hcount := count_functionNames before after declaration
  by_cases hname : declaration.name = name
  · subst hname
    simp only [functionConstants, Overload.members, if_pos]
    generalize (functionNames (before ++ .function declaration :: after)).count declaration.name =
      size at hcount
    by_cases hone : size = 1
    · have hfirst : (functionNames before).count declaration.name = 0 := by omega
      simp [hone, hfirst, FunctionConstant.boundFor?]
    · have hlt : (functionNames before).count declaration.name < size := by omega
      by_cases hafter : declaration.name ∈ functionNames after <;>
        simp [hone, hlt, hafter, FunctionConstant.boundFor?]
  · simp only [functionConstants, if_neg hname]
    grind [FunctionConstant.boundFor?]

/-- Only the last one of several functions brings a dispatcher, and it lists all members. -/
theorem listedFor?_functionConstants (before after : List Node) (declaration : FunctionDecl Node)
    (name : String) :
    (functionConstants before (.function declaration) after).filterMap
        (FunctionConstant.listedFor? name) =
      if declaration.name = name ∧ name ∉ functionNames after ∧
          (functionNames (before ++ .function declaration :: after)).count name ≠ 1 then
        [Overload.members name
          ((functionNames (before ++ .function declaration :: after)).count name)]
      else [] := by
  by_cases hname : declaration.name = name
  · subst hname
    simp only [functionConstants, Overload.members]
    generalize (functionNames (before ++ .function declaration :: after)).count declaration.name =
      size
    by_cases hone : size = 1
    · simp [hone, FunctionConstant.listedFor?]
    · by_cases hafter : declaration.name ∈ functionNames after <;>
        simp [hone, hafter, FunctionConstant.listedFor?, List.filterMap_cons]
  · simp only [functionConstants, hname, false_and, if_false]
    grind [FunctionConstant.listedFor?]

/-- The constants that statements become, in the order of the text. -/
def walkConstants (before nodes : List Node) : List FunctionConstant :=
  (walk before nodes).flatMap fun (before, node, after) => functionConstants before node after

theorem walkConstants_cons (before after : List Node) (node : Node) :
    walkConstants before (node :: after) =
      functionConstants before node after ++ walkConstants (before ++ [node]) after := by
  simp [walkConstants, walk]

theorem boundFor?_walkConstants {all before nodes : List Node} (hall : all = before ++ nodes)
    (name : String) :
    (walkConstants before nodes).filterMap (FunctionConstant.boundFor? name) =
      (Overload.members name ((functionNames all).count name)).drop
        ((functionNames before).count name) := by
  induction nodes generalizing before with
  | nil =>
    have hlength := Overload.length_members name ((functionNames all).count name)
    rw [List.drop_eq_nil_of_le (by rw [hlength, hall, List.append_nil])]
    rfl
  | cons node after ih =>
    have hrest := @ih (before ++ [node]) (by simpa using hall)
    rw [walkConstants_cons, List.filterMap_append, hrest, functionNames_append, List.count_append]
    cases node with
    | function declaration =>
      have hnames : functionNames [.function declaration] = [declaration.name] := rfl
      rw [boundFor?_functionConstants, hnames, ← hall, List.count_singleton]
      by_cases hname : declaration.name = name
      · subst hname
        have hcount := count_functionNames before after declaration
        rw [← hall] at hcount
        have hlt : (functionNames before).count declaration.name < (Overload.members
            declaration.name ((functionNames all).count declaration.name)).length := by
          rw [Overload.length_members]
          omega
        rw [List.drop_eq_getElem_cons hlt, List.getElem?_eq_getElem hlt]
        simp
      · simp [hname]
    | _ => rfl

theorem listedFor?_walkConstants {all before nodes : List Node} (hall : all = before ++ nodes)
    (name : String) :
    (walkConstants before nodes).filterMap (FunctionConstant.listedFor? name) =
      if name ∈ functionNames nodes ∧ (functionNames all).count name ≠ 1 then
        [Overload.members name ((functionNames all).count name)]
      else [] := by
  induction nodes generalizing before with
  | nil => rfl
  | cons node after ih =>
    have hrest := @ih (before ++ [node]) (by simpa using hall)
    rw [walkConstants_cons, List.filterMap_append, hrest]
    cases node with
    | function declaration =>
      have hnames : functionNames [.function declaration] = [declaration.name] := rfl
      rw [listedFor?_functionConstants, functionNames_cons, hnames, ← hall]
      by_cases hname : declaration.name = name
      · by_cases hafter : name ∈ functionNames after <;> simp [hname, hafter]
      · simp [hname, Ne.symm hname]
    | _ => rfl

/-- Every function name is declared, and no name is global twice. -/
theorem count_globals (program : Program) (options : Options) {name : String}
    (h : name ∈ functionNames program.body) :
    (program.document options).scope.globals.count name = 1 := by
  refine List.count_eq_one_of_mem (Scope.distinct_document program options).2 ?_
  have hleaves : Leaves (.declared name) ((program.notes options).map PlacedNote.note) :=
    (leaves_sections ..).mpr (.inr ⟨name, h, .inr rfl⟩)
  obtain ⟨placed, hplaced, hnote⟩ := List.mem_map.mp (leaves_declared.mp hleaves)
  exact Scope.mem_globals_recordAll.mpr (.inr ⟨placed, hplaced, hnote⟩)

/-- What becomes of functions. The text of a document, between header and footer, is that of its
statements one after another, where a function of its own name becomes a constant of that name, and
one of several a numbered constant, with a dispatcher after the last of them and nowhere else. The
constants of the functions of a name are, in the order of their declarations, the members that its
one dispatcher lists; no two of them are equal; and the name is global once. -/
theorem functions_become_constants (program : Program) (options : Options) :
    (program.document options).body =
        "\n" ++ String.join ((walk [] program.body).map fun (before, node, after) =>
          Body.gap before.getLast? node ++ tabs options.depth ++
            statementText options before node after) ∧
      ∀ name ∈ functionNames program.body,
        let size := (functionNames program.body).count name
        (walkConstants [] program.body).filterMap (FunctionConstant.boundFor? name) =
            Overload.members name size ∧
          (walkConstants [] program.body).filterMap (FunctionConstant.listedFor? name) =
            (if size = 1 then [] else [Overload.members name size]) ∧
          (Overload.members name size).Nodup ∧
          (program.document options).scope.globals.count name = 1 := by
  constructor
  · rw [← texts_sections options (List.nil_append program.body).symm]
    rfl
  · intro name hname size
    have hall := (List.nil_append program.body).symm
    refine ⟨boundFor?_walkConstants hall name, ?_, Overload.nodup_members name size,
      count_globals program options hname⟩
    rw [listedFor?_walkConstants hall name]
    by_cases hone : (functionNames program.body).count name = 1 <;> simp [size, hname, hone]

/-- Two functions of one name, with another function between them. -/
theorem interleaved_functions_become_constants :
    let program : Program := ⟨[.function ⟨"wave", "float", [], [], true⟩,
      .function ⟨"tone", "float", [], [], true⟩, .function ⟨"wave", "vec3", [], [], true⟩]⟩
    "wave" ∈ functionNames program.body ∧
      (walkConstants [] program.body).filterMap (FunctionConstant.boundFor? "wave") =
        ["wave_0", "wave_1"] ∧
      (walkConstants [] program.body).filterMap (FunctionConstant.listedFor? "wave") =
        [["wave_0", "wave_1"]] ∧
      (program.document .default).scope.globals.count "wave" = 1 := by
  intro program
  have hmem : "wave" ∈ functionNames program.body := by decide
  obtain ⟨hbound, hlisted, -, hglobal⟩ :=
    (functions_become_constants program .default).2 "wave" hmem
  exact ⟨hmem, hbound, hlisted, hglobal⟩

end ShaderScript
