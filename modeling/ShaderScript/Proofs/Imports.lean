import ShaderScript.Proofs.Constants
import ShaderScript.Proofs.Scope
import ShaderScript.Proofs.WrittenNames

/-!
# No library name of a document is left unbound

The text of a document is taken apart into the names in the place of identifiers and of called
functions, and into pieces that are no such names. Each of the names that belongs to the library is
imported, or hidden by a global name, or hidden by a name that the function around it binds.
-/

namespace ShaderScript

/-- Names that a document writes, in the order of its text, where some names are bound. -/
structure Usage where
  names : List String
  bound : List String

namespace Usage

variable (options : Options) (all : List String)

/-- What a top-level statement writes. Only the body of a function stands where names are bound. -/
def ofNode (earlier : List String) : Node → List Usage
  | .function function =>
    let context : Context := ⟨options.reference, options.depth + 1, false, false⟩
    [⟨["Fn"], []⟩, ⟨writtenBody context function.statements, function.boundNames⟩,
      ⟨if FunctionDecl.closesOverloads (Overload.of? all earlier function.name) then
          ["overloadingFn"]
        else [], []⟩]
  | node => [⟨written (Section.context options) node, []⟩]

/-- What top-level statements write. -/
def ofNodes : (earlier : List String) → List Node → List Usage
  | _, [] => []
  | earlier, node :: rest =>
    ofNode options all earlier node ++ ofNodes (earlier ++ functionNames [node]) rest

/-- The names are noted where the usage has them. -/
def NotedIn (usage : Usage) (placed : List PlacedNote) : Prop :=
  ∀ name ∈ usage.names, ⟨usage.bound, .mention name⟩ ∈ placed ∨
    ⟨usage.bound, .require name⟩ ∈ placed ∧ '.' ∉ name.toList

theorem NotedIn.mono {usage : Usage} {placed more : List PlacedNote} (h : usage.NotedIn placed)
    (hsub : placed ⊆ more) : usage.NotedIn more := by
  intro name hname
  exact (h name hname).imp (fun hm => hsub hm) (fun hr => ⟨hsub hr.1, hr.2⟩)

theorem notedIn_place {names bound : List String} {notes : List Note}
    (h : ∀ name ∈ names, Noted notes name) :
    (Usage.mk names bound).NotedIn (PlacedNote.place bound notes) := by
  intro name hname
  obtain hm | ⟨hr, hp⟩ := h name hname
  · exact .inl (List.mem_map_of_mem hm)
  · exact .inr ⟨List.mem_map_of_mem hr, hp⟩

end Usage

/-- What the names of a program are used for. -/
def Program.usages (program : Program) (options : Options) : List Usage :=
  Usage.ofNodes options (functionNames program.body) [] program.body

/-- The roles that the strings of a program have in its document. The numbered names of its functions
are own names as well. -/
def Program.Casts (program : Program) (role : Role) (text : String) : Prop :=
  (role, text) ∈ program.body.flatMap Node.roles ∨ role = .own ∧ text ∈ program.memberNames

/-! ## Functions -/

section Functions

variable {R : Role → String → Prop} (options : Options) {function : FunctionDecl Node}

theorem casts_statements (h : (Node.function function).Casts R) :
    ∀ node ∈ function.statements, node.Casts R := by
  intro node hnode
  obtain hcopy | hbody := List.mem_append.mp hnode
  · obtain ⟨parameter, hparameter, rfl⟩ := List.mem_map.mp hcopy
    have hmem := List.mem_of_mem_filter hparameter
    intro role text htext
    refine h.own (List.mem_cons_of_mem _ (List.mem_cons_of_mem _ ?_))
    refine List.mem_flatMap.mpr ⟨parameter, hmem, ?_⟩
    -- The value of a copy is a name, which has no role.
    obtain hroles | ⟨part, hpart, hinner⟩ := Node.mem_roles.mp htext
    · simp only [Parameter.copy, Node.ownRoles, List.flatMap_cons, List.flatMap_nil,
        List.append_nil] at hroles
      grind
    · obtain rfl : part = .accessor parameter.inputName := by
        simpa [Parameter.copy, Node.parts] using hpart
      rw [Node.mem_roles] at hinner
      simp [Node.ownRoles, Node.parts] at hinner
  · exact h.part hbody

theorem records_functionBody (h : (Node.function function).Casts R) :
    Records R
      (writtenBody ⟨options.reference, options.depth + 1, false, false⟩ function.statements)
      (function.emitBody options) := by
  simp only [FunctionDecl.emitBody, emitAll_eq_map, ofFragments_eq_emitBody]
  exact records_writtenBody (fun node hn => recordsWritten (casts_statements h node hn)) _

theorem casts_parameter (h : (Node.function function).Casts R) {parameter : Parameter}
    (hmem : parameter ∈ function.params) :
    R .own parameter.name ∧ R .own parameter.inputName ∧ R .quoted parameter.type := by
  have hroles (role : Role) (text : String) (htext : (role, text) ∈
      [(Role.own, parameter.name), (.own, parameter.inputName), (.quoted, parameter.name),
        (.quoted, parameter.type)]) : R role text :=
    h.own (List.mem_cons_of_mem _ (List.mem_cons_of_mem _
      (List.mem_flatMap.mpr ⟨parameter, hmem, htext⟩)))
  exact ⟨hroles _ _ (by simp), hroles _ _ (by simp), hroles _ _ (by simp)⟩

theorem marked_lead : Marked R [] options.lead := by
  unfold Options.lead
  split
  · exact .empty
  · rw [show "export " = "export" ++ " " by decide]
    exact .spaced (by decide)

theorem marked_inputList (h : (Node.function function).Casts R) :
    Marked R [] function.inputList := by
  have hinputs : Marked R [] (Script.bracketed (function.params.map Parameter.inputName)) := by
    refine .listed fun name hname => ?_
    obtain ⟨parameter, hmem, rfl⟩ := List.mem_map.mp hname
    exact (casts_parameter h hmem).2.1
  unfold FunctionDecl.inputList
  split
  · exact .signs _ (by decide)
  · exact ((Marked.signs _ (by decide)).before hinputs).after (.signs _ (by decide))

theorem marked_layoutText (h : (Node.function function).Casts R) :
    Marked R [] function.layoutText := by
  have hentries : ∀ text ∈ function.params.map (fun parameter =>
      Script.entry parameter.name (Script.literal parameter.type)) ++
        [Script.entry "return" (Script.literal function.type)], Marked R [] text := by
    intro text htext
    obtain hparam | hreturn := List.mem_append.mp htext
    · obtain ⟨parameter, hmem, rfl⟩ := List.mem_map.mp hparam
      obtain ⟨hname, -, htype⟩ := casts_parameter h hmem
      exact Marked.entry (.inr hname) (.quoted (.inr htype))
    · rw [List.mem_singleton.mp hreturn]
      exact Marked.entry (.inl (by decide)) (.quoted (.inr (h.own (by simp [Node.ownRoles]))))
  unfold FunctionDecl.layoutText
  split
  · have hlist := Marked.braced (Marked.nameless hentries)
    rw [List.map_const', List.flatten_replicate_nil] at hlist
    exact (Marked.signs " , " (by decide)).before hlist
  · exact .empty

/-- The start of a constant that holds a function or a dispatcher. -/
theorem marked_declaration {name : String} (hname : R .own name) :
    Marked R [] (options.lead ++ "const " ++ (name ++ " = ") ++ ("/*#__PURE__*/" ++ " ")) :=
  (((marked_lead options).after marked_const).before (.binding hname)).before
    ((Marked.comment (by decide)).after (.signs _ (by decide)))

theorem marked_constantText {names : List String} {body : String} {overload : Option Overload}
    (hcasts : (Node.function function).Casts R) (hname : R .own (function.constantName overload))
    (h : Marked R names body) :
    Marked R ("Fn" :: names) (function.constantText options overload body) := by
  have hcall : " = /*#__PURE__*/ Fn( " = " = " ++ "/*#__PURE__*/" ++ " " ++ "Fn" ++ "( " := by
    decide
  have hcallback := (Marked.signs "( " (by decide)).before
    (Marked.callback (marked_inputList hcasts) options.depth h)
  have hfn := (marked_declaration options hname).before ((Marked.name "Fn").append hcallback)
  have hclosed := (hfn.after (marked_layoutText hcasts)).after (.signs " );\n" (by decide))
  rw [FunctionDecl.constantText, hcall]
  simpa only [String.append_assoc, List.singleton_append] using hclosed

theorem marked_dispatcherText {size : Nat} (hname : R .own function.name)
    (hmembers : ∀ index < size, R .own (Overload.memberName function.name index)) :
    Marked R ["overloadingFn"] (function.dispatcherText options size) := by
  have hcall : " = /*#__PURE__*/ " = " = " ++ "/*#__PURE__*/" ++ " " := by decide
  have hlist : Marked R [] (Script.bracketed
      ((List.range size).map (Overload.memberName function.name))) := by
    refine .listed fun member hmember => ?_
    obtain ⟨index, hindex, rfl⟩ := List.mem_map.mp hmember
    exact hmembers index (List.mem_range.mp hindex)
  have hcalled := (marked_declaration options hname).before
    (Marked.apply "overloadingFn" (.cons hlist .nil))
  have hclosed := hcalled.after (.signs ";\n" (by decide))
  rw [FunctionDecl.dispatcherText, hcall]
  simpa only [String.append_assoc, List.flatten_cons, List.flatten_nil, List.append_nil]
    using hclosed

/-- The names in a function: those of its body after that of the constructor, and the dispatcher
behind the last overload. -/
theorem marked_functionText {names : List String} {body : String} {overload : Option Overload}
    (hcasts : (Node.function function).Casts R) (hname : R .own (function.constantName overload))
    (hmembers : ∀ place ∈ overload, ∀ index < place.size,
      R .own (Overload.memberName function.name index))
    (h : Marked R names body) :
    Marked R ("Fn" :: (names ++
        if FunctionDecl.closesOverloads overload then ["overloadingFn"] else []))
      (function.text options overload body) := by
  have hconstant := marked_constantText options hcasts hname h
  unfold FunctionDecl.text
  cases overload with
  | none => simpa [FunctionDecl.closesOverloads] using hconstant
  | some overload =>
    by_cases hlast : overload.isLast
    · have hdispatcher := marked_dispatcherText options (hcasts.own (by simp [Node.ownRoles]))
        (hmembers overload rfl)
      have hall := (hconstant.after (.signs "\n" (by decide))).append hdispatcher
      simpa [FunctionDecl.closesOverloads, hlast] using hall
    · simpa [FunctionDecl.closesOverloads, hlast] using hconstant

/-- The constant of a function and the overloads that a dispatcher lists have own names. -/
theorem own_of_overload {all earlier : List String} (hname : R .own function.name)
    (hmembers : ∀ name index, 1 < all.count name → index < all.count name →
      R .own (Overload.memberName name index))
    (hearlier : earlier.count function.name < all.count function.name) :
    R .own (function.constantName (Overload.of? all earlier function.name)) ∧
      ∀ place ∈ Overload.of? all earlier function.name, ∀ index < place.size,
        R .own (Overload.memberName function.name index) := by
  by_cases hmany : 1 < all.count function.name
  · rw [show Overload.of? all earlier function.name = some ⟨_, _⟩ from if_pos hmany]
    refine ⟨hmembers _ _ hmany hearlier, fun place hplace index hlt => ?_⟩
    obtain rfl := Option.some.inj hplace
    exact hmembers _ _ hmany hlt
  · rw [show Overload.of? all earlier function.name = none from if_neg hmany]
    exact ⟨hname, fun place hplace => absurd hplace (Option.not_mem_none place)⟩

end Functions

/-! ## Statements -/

section Statements

variable (options : Options) (all : List String)

theorem marked_section {R : Role → String → Prop} (earlier : List String) {node : Node}
    (h : node.Casts R)
    (hmembers : ∀ name index, 1 < all.count name → index < all.count name →
      R .own (Overload.memberName name index))
    (hearlier : ∀ name ∈ functionNames [node], earlier.count name < all.count name) :
    Marked R ((Usage.ofNode options all earlier node).flatMap Usage.names)
      (Section.ofNode options all earlier node).text := by
  cases node with
  | function function =>
    have hindex := hearlier function.name (List.mem_singleton.mpr rfl)
    have hname : R .own function.name := h.own (by simp [Node.ownRoles])
    obtain ⟨hconstant, hplaces⟩ := own_of_overload hname hmembers hindex
    simpa [Usage.ofNode, Section.ofNode, Section.ofFunction] using
      marked_functionText options h hconstant hplaces (records_functionBody options h).marked
  | _ =>
    have hnode := (recordsWritten h (Section.context options)).marked
    simpa [Usage.ofNode, Section.ofNode] using hnode.after (.signs ";\n" (by decide))

theorem notedIn_section (earlier : List String) (node : Node) :
    ∀ usage ∈ Usage.ofNode options all earlier node,
      usage.NotedIn (Section.ofNode options all earlier node).notes := by
  cases node with
  | function function =>
    have hbody := (records_functionBody options (Node.casts_true (.function function))).noted
    have hfn : ∀ name ∈ ["Fn"],
        Noted (function.ownNotes (Overload.of? all earlier function.name)) name := by
      intro name hname
      obtain rfl := List.mem_singleton.mp hname
      exact .inr ⟨by simp [FunctionDecl.ownNotes], by decide⟩
    have hdispatcher : ∀ name ∈
        if FunctionDecl.closesOverloads (Overload.of? all earlier function.name) then
          ["overloadingFn"]
        else [],
        Noted (function.ownNotes (Overload.of? all earlier function.name)) name := by
      unfold FunctionDecl.ownNotes
      split <;> simp [Noted]
    simp only [Usage.ofNode, Section.ofNode, Section.ofFunction, List.forall_mem_cons]
    refine ⟨?_, ?_, ?_, List.forall_mem_nil _⟩
    · exact (Usage.notedIn_place hfn).mono (List.subset_append_right _ _)
    · exact (Usage.notedIn_place hbody).mono (List.subset_append_left _ _)
    · exact (Usage.notedIn_place hdispatcher).mono (List.subset_append_right _ _)
  | _ =>
    simp only [Usage.ofNode, Section.ofNode, List.forall_mem_singleton]
    exact Usage.notedIn_place (recordsWritten (Node.casts_true _) _).noted

theorem marked_sections {R : Role → String → Prop} {earlier : List String}
    (previous : Option Node) {nodes : List Node} (h : ∀ node ∈ nodes, node.Casts R)
    (hmembers : ∀ name index, 1 < all.count name → index < all.count name →
      R .own (Overload.memberName name index))
    (hall : all = earlier ++ functionNames nodes) :
    Marked R ((Usage.ofNodes options all earlier nodes).flatMap Usage.names)
      (String.join ((sections options all earlier previous nodes).map Section.text)) := by
  induction nodes generalizing earlier previous with
  | nil => exact .empty
  | cons node nodes ih =>
    have hnext : all = earlier ++ functionNames [node] ++ functionNames nodes := by
      rw [hall, functionNames_cons, List.append_assoc]
    have hearlier : ∀ name ∈ functionNames [node], earlier.count name < all.count name := by
      intro name hname
      have hpositive := List.count_pos_iff.mpr hname
      rw [hnext, List.count_append, List.count_append]
      omega
    have hspace : Marked R [] (Body.gap previous node ++ Script.tabs options.depth) :=
      (marked_gap previous node).after (.tabs options.depth)
    have hnode := hspace.before (marked_section options all earlier (h node List.mem_cons_self)
      hmembers hearlier)
    have hrest := ih (some node) (fun other ho => h other (List.mem_cons_of_mem _ ho)) hnext
    simpa [Usage.ofNodes, sections] using hnode.append hrest

theorem notedIn_sections (earlier : List String) (previous : Option Node) (nodes : List Node) :
    ∀ usage ∈ Usage.ofNodes options all earlier nodes,
      usage.NotedIn ((sections options all earlier previous nodes).flatMap Section.notes) := by
  induction nodes generalizing earlier previous with
  | nil => nofun
  | cons node nodes ih =>
    intro usage husage
    simp only [sections, List.flatMap_cons]
    rcases List.mem_append.mp husage with hn | hr
    · exact (notedIn_section options all earlier node usage hn).mono (List.subset_append_left _ _)
    · exact (ih _ _ usage hr).mono (List.subset_append_right _ _)

end Statements

/-- Every string of a program has its roles, and so have the names of its overloads. -/
theorem Program.casts_body (program : Program) :
    ∀ node ∈ program.body, node.Casts program.Casts :=
  fun node hnode _ _ htext => .inl (List.mem_flatMap.mpr ⟨node, hnode, htext⟩)

/-- **Imports are complete.** The text between header and footer is made of the names that a document
writes for identifiers and called functions, and of pieces that are no names to be bound; no word of
the language is a name of the library. Each of the names that belongs to the library is imported, or
global, or bound by the function around it. -/
theorem written_library_names_bound (program : Program) (options : Options) :
    let document := program.document options
    program.generate options = document.header ++ document.body ++ document.footer ∧
      Marked program.Casts ((program.usages options).flatMap Usage.names) document.body ∧
      (∀ word ∈ Script.words, ¬ Library.isSymbol word) ∧
      ∀ usage ∈ program.usages options, ∀ name ∈ usage.names,
        Library.isSymbol (Scope.rootName name) →
          Scope.rootName name ∈ document.scope.imports ∨
            Scope.rootName name ∈ document.scope.globals ∨
              Scope.rootName name ∈ usage.bound := by
  refine ⟨rfl, ?_, by decide +kernel, ?_⟩
  · have hmembers (name : String) (index : Nat) (hmany : 1 < (functionNames program.body).count name)
        (hlt : index < (functionNames program.body).count name) :
        program.Casts .own (Overload.memberName name index) :=
      .inr ⟨rfl, Program.mem_memberNames.mpr ⟨name, index, hmany, hlt, rfl⟩⟩
    exact (Marked.signs "\n" (by decide)).before
      (marked_sections options _ none program.casts_body hmembers rfl)
  · intro usage husage name hname hsymbol
    have hnoted := notedIn_sections options (functionNames program.body) [] none program.body
    obtain hm | ⟨hr, hpoint⟩ := hnoted usage husage name hname
    · exact Scope.bound_of_mention hm hsymbol
    · rw [Scope.rootName_eq_self hpoint]
      exact .inl (Scope.mem_imports_of_require hr)

end ShaderScript
