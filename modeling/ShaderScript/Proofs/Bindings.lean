import ShaderScript.Proofs.Constants
import ShaderScript.Proofs.Scope
import ShaderScript.Proofs.NameUses

/-!
# When no name is bound twice

A document binds the names it imports and those of its constants. If a program declares no name
twice, there are two ways left to bind a name twice. An own name can be imported: the program calls
for the library's name before it introduces the own name, and it never introduces the name of a
variable. And the number that an overload gets can make it one of the own names. These two are all,
and the first one does occur.
-/

namespace ShaderScript

/-! ## Imported names -/

/-- The names that notes declare. -/
def declaredNames (notes : List PlacedNote) : List String :=
  notes.filterMap fun placed =>
    match placed.note with
    | .declare name => some name
    | _ => none

/-- The global names that are introduced. -/
def introducedNames (uses : List PlacedUse) : List String :=
  uses.filterMap fun placed =>
    match placed.use with
    | .introduces name => some name
    | _ => none

/-- The use asks for this name of the library, after the given names have been introduced: a
statement is built with it, or it is called for where no name that is introduced or bound hides
it. -/
inductive AsksFor (introduced : List String) (name : String) : PlacedUse → Prop
  | calls {bound : List String} {full : String} (hroot : Scope.rootName full = name)
    (hsymbol : Library.isSymbol name) (hintroduced : name ∉ introduced) (hbound : name ∉ bound) :
    AsksFor introduced name ⟨bound, .calls full⟩
  | builds {bound : List String} : AsksFor introduced name ⟨bound, .builds name⟩

/-- Somewhere the library's name is asked for, in spite of all names introduced until then. -/
def CalledEarly (uses : List PlacedUse) (name : String) : Prop :=
  ∃ before placed after, uses = before ++ placed :: after ∧
    AsksFor (introducedNames before) name placed

theorem mem_globals_iff_mem_declaredNames {notes : List PlacedNote} {name : String} :
    name ∈ (Scope.empty.recordAll notes).globals ↔ name ∈ declaredNames notes := by
  rw [Scope.mem_globals_recordAll, declaredNames, List.mem_filterMap]
  simp only [Scope.empty, List.not_mem_nil, false_or]
  refine exists_congr fun placed => and_congr_right fun _ => ?_
  cases placed.note <;> simp

/-- The globals are the declared names in the order of their declarations. -/
theorem Scope.globals_recordAll (scope : Scope) (notes : List PlacedNote) :
    (scope.recordAll notes).globals = (declaredNames notes).foldl addName scope.globals := by
  induction notes generalizing scope with
  | nil => rfl
  | cons placed notes ih =>
    obtain ⟨bound, note⟩ := placed
    rw [recordAll_cons, ih]
    cases note with
    | mention full =>
      simp only [record, declaredNames, List.filterMap_cons]
      split <;> rfl
    | require name => rfl
    | declare name => rfl
    | report diagnostic => rfl

theorem introducedNames_filterMap_use? (notes : List PlacedNote) :
    introducedNames (notes.filterMap PlacedNote.use?) = declaredNames notes := by
  rw [introducedNames, declaredNames, List.filterMap_filterMap]
  refine List.filterMap_congr fun placed _ => ?_
  obtain ⟨bound, note⟩ := placed
  cases note <;> rfl

/-- A note imports a name exactly if what it says about names asks for it. -/
theorem Scope.imports_iff_asksFor {globals introduced : List String} {name : String}
    {placed : PlacedNote} (h : ∀ name, name ∈ globals ↔ name ∈ introduced) :
    Imports globals name placed ↔
      ∃ use, placed.use? = some use ∧ AsksFor introduced name use := by
  constructor
  · rintro (⟨hroot, hsymbol, hglobal, hbound⟩ | _)
    · exact ⟨_, rfl, .calls hroot hsymbol (fun hi => hglobal ((h name).mpr hi)) hbound⟩
    · exact ⟨_, rfl, .builds⟩
  · obtain ⟨bound, note⟩ := placed
    rintro ⟨use, huse, hasks⟩
    cases note with
    | mention full =>
      cases huse
      obtain ⟨hroot, hsymbol, hintroduced, hbound⟩ := hasks
      exact .mention hroot hsymbol (fun hg => hintroduced ((h name).mp hg)) hbound
    | require required =>
      cases huse
      cases hasks
      exact .require
    | declare declared =>
      cases huse
      cases hasks
    | report diagnostic => cases huse

/-- The imported names are those that are called for early. -/
theorem mem_imports_iff_calledEarly {program : Program} {options : Options} {name : String} :
    name ∈ (program.document options).scope.imports ↔
      CalledEarly (program.uses options) name := by
  have hglobals (before : List PlacedNote) (name : String) :
      name ∈ (Scope.empty.recordAll before).globals ↔
        name ∈ introducedNames (before.filterMap PlacedNote.use?) := by
    rw [introducedNames_filterMap_use?]
    exact mem_globals_iff_mem_declaredNames
  rw [Program.document, Scope.mem_imports_recordAll, ← program.filterMap_use?_notes options]
  simp only [Scope.empty, List.not_mem_nil, false_or]
  constructor
  · rintro ⟨before, placed, after, hnotes, himports⟩
    obtain ⟨use, huse, hasks⟩ := (Scope.imports_iff_asksFor (hglobals before)).mp himports
    refine ⟨before.filterMap PlacedNote.use?, use, after.filterMap PlacedNote.use?, ?_, hasks⟩
    rw [Program.notes, hnotes, List.filterMap_append, List.filterMap_cons_some huse]
  · rintro ⟨before, use, after, huses, hasks⟩
    -- Between the uses before it and the use itself there may be problems that are reported.
    obtain ⟨first, rest, hnotes, rfl, hrest⟩ := List.filterMap_eq_append_iff.mp huses
    obtain ⟨skipped, placed, last, rfl, hskipped, huse, -⟩ := List.filterMap_eq_cons_iff.mp hrest
    refine ⟨first ++ skipped, placed, last, hnotes.trans (List.append_assoc ..).symm, ?_⟩
    have hnone : skipped.filterMap PlacedNote.use? = [] := List.filterMap_eq_nil_iff.mpr hskipped
    refine (Scope.imports_iff_asksFor (hglobals (first ++ skipped))).mpr ⟨use, huse, ?_⟩
    rwa [List.filterMap_append, hnone, List.append_nil]

/-- A name that a program requires is one of the four that text is built with. -/
theorem required_of_mem_notes {program : Program} {options : Options} {placed : PlacedNote}
    {name : String} (h : placed ∈ program.notes options) (hnote : placed.note = .require name) :
    name ∈ "Fn" :: statementNames := by
  have hleaves : Leaves (.required name) ((program.notes options).map PlacedNote.note) :=
    leaves_required.mpr (List.mem_map.mpr ⟨placed, h, hnote⟩)
  rw [Program.notes, Program.sections, leaves_sections] at hleaves
  obtain ⟨root, -, hbears⟩ | ⟨function, -, hfn | hdeclared⟩ := hleaves
  · exact List.mem_cons_of_mem _ (Node.required_of_bears hbears)
  · cases hfn
    exact List.mem_cons_self
  · cases hdeclared

/-- The names that text is built with belong to the library. -/
theorem isSymbol_of_required {name : String} (h : name ∈ "Fn" :: statementNames) :
    Library.isSymbol name := by
  have hall : ∀ name ∈ "Fn" :: statementNames, Library.isSymbol name := by decide +kernel
  exact hall name h

theorem isSymbol_of_mem_imports {program : Program} {options : Options} {name : String}
    (h : name ∈ (program.document options).scope.imports) : Library.isSymbol name := by
  rw [Program.document, Scope.mem_imports_recordAll] at h
  obtain hnone | ⟨before, placed, after, hnotes, himports⟩ := h
  · cases hnone
  · have hmem : placed ∈ program.notes options := by simp [Program.notes, hnotes]
    cases himports with
    | mention hr hs hg hb => exact hs
    | require => exact isSymbol_of_required (required_of_mem_notes hmem rfl)

/-- A numbered name is never imported: names of the library have no underscore. -/
theorem not_mem_imports_of_mem_memberNames {program : Program} {options : Options} {name : String}
    (h : name ∈ program.memberNames) : name ∉ (program.document options).scope.imports := by
  intro hi
  obtain ⟨function, index, -, -, rfl⟩ := Program.mem_memberNames.mp h
  have hunderscore : '_' ∈ (Overload.memberName function index).toList := by
    rw [Overload.toList_memberName]
    exact List.mem_append_right _ List.mem_cons_self
  exact absurd (Library.isAlphanum_of_isSymbol (isSymbol_of_mem_imports hi) _ hunderscore)
    (by decide)

/-! ## Constants in the text -/

/-- The names stand in the text, one after another and in this order. -/
inductive Stand : List String → String → Prop
  | plain (text : String) : Stand [] text
  | name (before name : String) {names : List String} {rest : String} (h : Stand names rest) :
    Stand (name :: names) (before ++ name ++ rest)

namespace Stand

variable {names others : List String} {text other : String}

theorem before (start : String) (h : Stand names text) : Stand names (start ++ text) := by
  cases h with
  | plain => exact .plain _
  | name before name h =>
    rw [← String.append_assoc, ← String.append_assoc]
    exact .name _ _ h

theorem append (h : Stand names text) (ho : Stand others other) :
    Stand (names ++ others) (text ++ other) := by
  induction h with
  | plain text => exact ho.before text
  | name before name h ih =>
    rw [List.cons_append, String.append_assoc]
    exact .name _ _ ih

theorem after (finish : String) (h : Stand names text) : Stand names (text ++ finish) := by
  simpa using h.append (.plain finish)

theorem single (name : String) : Stand [name] name := by
  simpa using Stand.name "" name (.plain "")

/-- Names that stand in parts stand in the parts put together. -/
theorem intercalate (separator : String) {parts : List (List String)} {texts : List String}
    (h : List.Forall₂ Stand parts texts) : Stand parts.flatten (separator.intercalate texts) := by
  induction h with
  | nil => exact .plain _
  | @cons first text rest texts hf hr ih =>
    cases hr with
    | nil => simpa using hf
    | cons =>
      rw [String.intercalate_cons_cons, String.append_assoc]
      exact hf.append (ih.before separator)

end Stand

/-- How a constant begins in the text, after the word that opens the declaration. -/
def bindingStart (name : String) : String :=
  name ++ " = "

theorem stand_binding_start (name type : String) (value : Option Fragment)
    (isConverted mutable : Bool) :
    Stand [bindingStart name] (Form.binding name type value isConverted mutable).text :=
  ((Stand.single (bindingStart name)).after _).after _

theorem stand_dataNames (context : Context) (node : Node) :
    Stand (node.dataNames.map bindingStart) (emit context node).text := by
  cases node with
  | uniform name type =>
    rw [emit, Form.uniform]
    exact ((Stand.single (bindingStart name)).before "const ").after _
  | varying name type =>
    rw [emit, Form.varying]
    exact ((Stand.single (bindingStart name)).before "const ").after _
  | bindings declarators =>
    rw [emit, emitDeclarators_eq_map, Form.bindings]
    have hparts : List.Forall₂ Stand
        (declarators.map fun declarator => [bindingStart declarator.name])
        (Fragment.texts (declarators.map (emitDeclarator context.initializers))) := by
      rw [Fragment.texts, List.map_map]
      refine forall₂_map ?_
      rintro ⟨name, type, value, mutable⟩ -
      simp only [Function.comp_apply, emitDeclarator]
      exact stand_binding_start ..
    rw [Node.dataNames, List.map_map, List.map_eq_flatMap, List.flatMap_def]
    exact (Stand.intercalate ", " hparts).before "const "
  | _ => exact .plain _

theorem stand_functionText_constants (options : Options) (function : FunctionDecl Node)
    (overload : Option Overload) (body : String) :
    Stand ((function.constantName overload ::
        if FunctionDecl.closesOverloads overload then [function.name] else []).map bindingStart)
      (function.text options overload body) := by
  have hconstant : Stand [bindingStart (function.constantName overload)]
      (function.constantText options overload body) := by
    have hstart : " = /*#__PURE__*/ Fn( " = " = " ++ "/*#__PURE__*/ Fn( " := by decide
    have hname := ((Stand.single (bindingStart (function.constantName overload))).before
      (options.lead ++ "const ")).after "/*#__PURE__*/ Fn( "
    have hrest := ((hname.after (Script.callback function.inputList options.depth body)).after
      function.layoutText).after " );\n"
    rw [FunctionDecl.constantText, hstart]
    simpa only [bindingStart, String.append_assoc] using hrest
  have hdispatcher (size : Nat) : Stand [bindingStart function.name]
      (function.dispatcherText options size) := by
    have hstart : " = /*#__PURE__*/ " = " = " ++ "/*#__PURE__*/ " := by decide
    have hname := ((Stand.single (bindingStart function.name)).before
      (options.lead ++ "const ")).after "/*#__PURE__*/ "
    have hrest := (hname.after (Script.apply "overloadingFn" [Script.bracketed
      ((List.range size).map (Overload.memberName function.name))])).after ";\n"
    rw [FunctionDecl.dispatcherText, hstart]
    simpa only [bindingStart, String.append_assoc] using hrest
  unfold FunctionDecl.text
  cases overload with
  | none => simpa [FunctionDecl.closesOverloads] using hconstant
  | some overload =>
    by_cases hlast : overload.isLast
    · have hall := (hconstant.after "\n").append (hdispatcher overload.size)
      simpa [FunctionDecl.closesOverloads, hlast] using hall
    · simpa [FunctionDecl.closesOverloads, hlast] using hconstant

theorem stand_constants (options : Options) (all earlier : List String) (previous : Option Node)
    (nodes : List Node) :
    Stand ((constants all earlier nodes).map bindingStart)
      (String.join ((sections options all earlier previous nodes).map Section.text)) := by
  induction nodes generalizing earlier previous with
  | nil => exact .plain _
  | cons node nodes ih =>
    have hdata := (stand_dataNames (Section.context options) node).after ";\n"
    have hnode : Stand ((node.constants all earlier).map bindingStart)
        (Section.ofNode options all earlier node).text := by
      cases node with
      | function function => exact stand_functionText_constants ..
      | _ => exact hdata
    have hsection := hnode.before (Body.gap previous node ++ Script.tabs options.depth)
    have hrest := ih (earlier ++ functionNames [node]) (some node)
    simpa [constants, sections] using hsection.append hrest

/-- A program that declares no name twice has a document that binds no name twice if and only if no
own name is called for early and no numbered name is an own name. -/
theorem bound_once_iff (program : Program) (options : Options) (h : program.ownNames.Nodup) :
    Stand (program.constants.map bindingStart) (program.generate options) ∧
      (((∀ name ∈ (program.document options).scope.imports, name ∉ program.constants) ∧
          program.constants.Nodup) ↔
        (∀ name ∈ program.ownNames, ¬ CalledEarly (program.uses options) name) ∧
          ∀ name index, 1 < (functionNames program.body).count name →
            index < (functionNames program.body).count name →
              Overload.memberName name index ∉ program.ownNames) := by
  constructor
  · have hbody := stand_constants options (functionNames program.body) [] none program.body
    exact ((hbody.before "\n").before _).after _
  · refine and_congr ?_ (Program.nodup_constants_iff h)
    constructor
    · intro hdisjoint name hown hcalled
      refine hdisjoint name (mem_imports_iff_calledEarly.mpr hcalled) ?_
      exact program.perm_constants.mem_iff.mpr (List.mem_append_left _ hown)
    · intro hown name himport hconstant
      obtain ho | hm := List.mem_append.mp (program.perm_constants.mem_iff.mp hconstant)
      · exact hown name ho (mem_imports_iff_calledEarly.mp himport)
      · exact not_mem_imports_of_mem_memberNames hm himport

/-- A uniform that hides a name of the library, and two overloads that use it. -/
theorem bound_once_overloads :
    let program : Program := ⟨[.uniform "time" "float",
      .function ⟨"wave", "float", [], [.return (some (.accessor "time"))], false⟩,
      .function ⟨"wave", "float", [], [.return none], false⟩]⟩
    program.ownNames.Nodup ∧ program.constants = ["time", "wave_0", "wave_1", "wave"] ∧
      (∀ name ∈ (program.document .default).scope.imports, name ∉ program.constants) ∧
        (∀ name ∈ program.ownNames, ¬ CalledEarly (program.uses .default) name) ∧
          ∀ name index, 1 < (functionNames program.body).count name →
            index < (functionNames program.body).count name →
              Overload.memberName name index ∉ program.ownNames := by
  intro program
  have hown : program.ownNames.Nodup := by decide
  have hconstants : program.constants = ["time", "wave_0", "wave_1", "wave"] := by decide
  have himports : ∀ name ∈ (program.document .default).scope.imports, name ∉ program.constants := by
    decide +kernel
  exact ⟨hown, hconstants, himports,
    (bound_once_iff program .default hown).2.mp ⟨himports, by rw [hconstants]; decide⟩⟩

/-- A variable that has the name of a library value is imported where it is used. -/
theorem variable_bound_twice :
    let program : Program := ⟨[.bindings [⟨"time", "float", some (.number "1.0" .float), false⟩],
      .accessor "time"]⟩
    program.ownNames.Nodup ∧ (program.document .default).scope.imports = ["float", "time"] ∧
      program.constants = ["time"] := by
  decide +kernel

end ShaderScript
