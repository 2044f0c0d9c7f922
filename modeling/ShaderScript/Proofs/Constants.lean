import Mathlib.Data.List.Dedup
import Mathlib.Data.List.Perm.Basic
import ShaderScript.Proofs.Traces

/-!
# The constants of a document

Every top-level declaration becomes a constant, and a function that has its name for itself does
too. Of several functions of one name each gets a constant with a number, and the last one adds a
constant for the name. So the constants are the declared names, each function name once, and the
numbered ones: `perm_constants` says that these are all, and that none is there too often.
-/

namespace ShaderScript

/-! ## Numbered names -/

namespace Overload

theorem toList_memberName (name : String) (index : Nat) :
    (memberName name index).toList = name.toList ++ '_' :: Nat.toDigits 10 index := by
  simp [memberName, Nat.toString_eq_repr, Nat.repr]

theorem underscore_notMem_toDigits (index : Nat) : '_' ∉ Nat.toDigits 10 index := by
  intro hmem
  exact absurd (Nat.isDigit_of_mem_toDigits (by decide) (by decide) hmem) (by decide)

/-- Lists that agree up to a character agree before and after its last occurrence. -/
theorem append_cons_inj {front other back rest : List Char} {c : Char} (hb : c ∉ back)
    (hr : c ∉ rest) (h : front ++ c :: back = other ++ c :: rest) :
    front = other ∧ back = rest := by
  obtain ⟨middle, rfl, heq⟩ | ⟨middle, rfl, heq⟩ := List.append_eq_append_iff.mp h
  · cases middle with
    | nil => exact ⟨by simp, (List.cons.inj heq).2⟩
    | cons first middle =>
      rw [(List.cons.inj heq).2] at hb
      exact absurd (List.mem_append_right _ List.mem_cons_self) hb
  · cases middle with
    | nil => exact ⟨by simp, (List.cons.inj heq).2.symm⟩
    | cons first middle =>
      rw [(List.cons.inj heq).2] at hr
      exact absurd (List.mem_append_right _ List.mem_cons_self) hr

/-- A numbered name has one name and one number: its last underscore stands between them. -/
theorem memberName_inj {name other : String} {index place : Nat}
    (h : memberName name index = memberName other place) : name = other ∧ index = place := by
  have hlists := congrArg String.toList h
  rw [toList_memberName, toList_memberName] at hlists
  obtain ⟨hname, hdigits⟩ := append_cons_inj (underscore_notMem_toDigits index)
    (underscore_notMem_toDigits place) hlists
  refine ⟨String.toList_inj.mp hname, ?_⟩
  rw [← Nat.ofDigitChars_toDigits (n := index) (b := 10) (by decide) (by decide), hdigits,
    Nat.ofDigitChars_toDigits (by decide) (by decide)]

end Overload

/-- The numbered names of functions, in the order of their text; `earlier` are the names of the
functions before, `all` those of the program. -/
def memberNames (all : List String) : (earlier : List String) → List String → List String
  | _, [] => []
  | earlier, name :: rest =>
    (if 1 < all.count name then [Overload.memberName name (earlier.count name)] else []) ++
      memberNames all (earlier ++ [name]) rest

theorem mem_memberNames {all earlier names : List String} {member : String}
    (hall : all = earlier ++ names) :
    member ∈ memberNames all earlier names ↔
      ∃ name index, 1 < all.count name ∧ earlier.count name ≤ index ∧ index < all.count name ∧
        Overload.memberName name index = member := by
  induction names generalizing earlier with
  | nil =>
    subst hall
    simp only [memberNames, List.append_nil, List.not_mem_nil, false_iff]
    rintro ⟨name, index, -, hlow, hhigh, -⟩
    omega
  | cons first rest ih =>
    have hcount : all.count first = earlier.count first + 1 + rest.count first := by
      rw [hall, List.count_append, List.count_cons_self]
      omega
    rw [memberNames, List.mem_append, ih (by simpa using hall)]
    constructor
    · rintro (hfirst | ⟨name, index, hmany, hlow, hhigh, rfl⟩)
      · split at hfirst
        · rename_i hmany
          obtain rfl := List.mem_singleton.mp hfirst
          exact ⟨first, earlier.count first, hmany, Nat.le_refl _, by omega, rfl⟩
        · cases hfirst
      · rw [List.count_append] at hlow
        exact ⟨name, index, hmany, by omega, hhigh, rfl⟩
    · rintro ⟨name, index, hmany, hlow, hhigh, rfl⟩
      by_cases hfirst : name = first ∧ index = earlier.count first
      · obtain ⟨rfl, rfl⟩ := hfirst
        exact .inl (by simp [hmany])
      · refine .inr ⟨name, index, hmany, ?_, hhigh, rfl⟩
        rw [List.count_append, List.count_singleton]
        split
        · rename_i heq
          obtain rfl : first = name := by simpa using heq
          have hne : index ≠ earlier.count first := fun h => hfirst ⟨rfl, h⟩
          omega
        · omega

/-- No two overloads get the same number. -/
theorem nodup_memberNames {all earlier names : List String} (hall : all = earlier ++ names) :
    (memberNames all earlier names).Nodup := by
  induction names generalizing earlier with
  | nil => exact List.nodup_nil
  | cons first rest ih =>
    have hrest : all = earlier ++ [first] ++ rest := by simpa using hall
    rw [memberNames]
    split
    · rw [List.singleton_append, List.nodup_cons]
      refine ⟨fun hmem => ?_, ih hrest⟩
      obtain ⟨name, index, -, hlow, -, heq⟩ := (mem_memberNames hrest).mp hmem
      obtain ⟨rfl, rfl⟩ := Overload.memberName_inj heq
      rw [List.count_append, List.count_singleton_self] at hlow
      omega
    · exact ih hrest

/-! ## Constants -/

namespace Node

/-- The names that a declaration of data introduces. -/
def dataNames : Node → List String
  | .uniform name _ | .varying name _ => [name]
  | .bindings declarators => declarators.map Declarator.name
  | _ => []

/-- The names of the constants that a top-level statement becomes. -/
def constants (all earlier : List String) : Node → List String
  | .function declaration =>
    let overload := Overload.of? all earlier declaration.name
    declaration.constantName overload ::
      if FunctionDecl.closesOverloads overload then [declaration.name] else []
  | node => node.dataNames

end Node

/-- The names of the constants that top-level statements become. -/
def constants (all : List String) : (earlier : List String) → List Node → List String
  | _, [] => []
  | earlier, node :: rest =>
    node.constants all earlier ++ constants all (earlier ++ functionNames [node]) rest

/-- A function becomes a numbered constant if it shares its name, and a constant of its own name if
no function of that name follows. -/
theorem perm_constants_function {all earlier rest : List String} {function : FunctionDecl Node}
    (hall : all = earlier ++ function.name :: rest) :
    ((Node.function function).constants all earlier).Perm
      ((if function.name ∈ rest then [] else [function.name]) ++
        if 1 < all.count function.name then
          [Overload.memberName function.name (earlier.count function.name)]
        else []) := by
  have hcount : all.count function.name =
      earlier.count function.name + 1 + rest.count function.name := by
    rw [hall, List.count_append, List.count_cons_self]
    omega
  have hlast : function.name ∈ rest ↔ rest.count function.name ≠ 0 := by
    rw [ne_eq, List.count_eq_zero, not_not]
  by_cases hmany : 1 < all.count function.name
  · by_cases hrest : function.name ∈ rest
    · have hopen : earlier.count function.name + 1 ≠ all.count function.name := by
        have := hlast.mp hrest
        omega
      simp [Node.constants, Overload.of?, FunctionDecl.constantName, FunctionDecl.closesOverloads,
        Overload.isLast, hmany, hrest, hopen]
    · have hclosed : earlier.count function.name + 1 = all.count function.name := by
        have := mt hlast.mpr hrest
        omega
      simp [Node.constants, Overload.of?, FunctionDecl.constantName, FunctionDecl.closesOverloads,
        Overload.isLast, hmany, hrest, hclosed, List.Perm.swap]
  · have hrest : function.name ∉ rest := fun h => by
      have := hlast.mp h
      omega
    simp [Node.constants, Overload.of?, FunctionDecl.constantName, FunctionDecl.closesOverloads,
      hmany, hrest]

theorem dedup_cons (name : String) (rest : List String) :
    (name :: rest).dedup = (if name ∈ rest then [] else [name]) ++ rest.dedup := by
  by_cases hmem : name ∈ rest
  · simp [hmem, List.dedup_cons_of_mem]
  · simp [hmem, List.dedup_cons_of_notMem]

/-- The constants are the declared names, each function name once, and the numbered names. -/
theorem perm_constants {all earlier : List String} {nodes : List Node}
    (hall : all = earlier ++ functionNames nodes) :
    (constants all earlier nodes).Perm
      (nodes.flatMap Node.dataNames ++ (functionNames nodes).dedup ++
        memberNames all earlier (functionNames nodes)) := by
  induction nodes generalizing earlier with
  | nil => exact .nil
  | cons node nodes ih =>
    rw [functionNames_cons, ← List.append_assoc] at hall
    have hrest := ih hall
    rw [constants, functionNames_cons node nodes, List.flatMap_cons]
    rw [List.perm_iff_count] at hrest ⊢
    intro name
    cases node with
    | function function =>
      have hnames : functionNames [.function function] = [function.name] := rfl
      have hdata : (Node.function function).dataNames = [] := rfl
      rw [hnames] at hall hrest ⊢
      have hfunction := perm_constants_function (by simpa using hall)
      rw [hdata, List.singleton_append, dedup_cons, memberNames, List.count_append,
        hfunction.count_eq, hrest]
      simp only [List.count_append, List.count_nil]
      omega
    | _ =>
      have hname := hrest name
      simp only [functionNames, List.filterMap_cons, List.filterMap_nil, List.append_nil,
        List.nil_append, Node.constants, List.count_append] at hname ⊢
      omega

/-! ## Own names of a program -/

namespace Program

/-- The names that a program declares at its top level, with each function name once. -/
def ownNames (program : Program) : List String :=
  program.body.flatMap Node.dataNames ++ (functionNames program.body).dedup

/-- The names of the constants at the top level of a document. -/
def constants (program : Program) : List String :=
  ShaderScript.constants (functionNames program.body) [] program.body

/-- The numbered names of a program. -/
def memberNames (program : Program) : List String :=
  ShaderScript.memberNames (functionNames program.body) [] (functionNames program.body)

theorem perm_constants (program : Program) :
    program.constants.Perm (program.ownNames ++ program.memberNames) :=
  ShaderScript.perm_constants (by simp)

theorem mem_memberNames {program : Program} {member : String} :
    member ∈ program.memberNames ↔
      ∃ name index, 1 < (functionNames program.body).count name ∧
        index < (functionNames program.body).count name ∧
          Overload.memberName name index = member := by
  rw [memberNames, ShaderScript.mem_memberNames (by simp)]
  simp

/-- If a program's own names are distinct, so are its constants, unless a numbered name is one of
its own names. -/
theorem nodup_constants_iff {program : Program} (h : program.ownNames.Nodup) :
    program.constants.Nodup ↔
      ∀ name index, 1 < (functionNames program.body).count name →
        index < (functionNames program.body).count name →
          Overload.memberName name index ∉ program.ownNames := by
  have hmembers : program.memberNames.Nodup := nodup_memberNames (by simp)
  rw [(perm_constants program).nodup_iff, List.nodup_append']
  simp only [h, hmembers, true_and, List.disjoint_right, mem_memberNames]
  constructor
  · intro hd name index hmany hlt
    exact hd ⟨name, index, hmany, hlt, rfl⟩
  · rintro hd member ⟨name, index, hmany, hlt, rfl⟩
    exact hd name index hmany hlt

end Program

end ShaderScript
