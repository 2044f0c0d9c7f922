import Mathlib.Data.List.TakeWhile
import ShaderScript.Emit.Fragment

/-!
# What becomes of a note

A scope only grows. A name that a note asks for is imported, unless it is a global name by then or a
name bound around the note, and it cannot be lost afterwards. Every imported and every global name
comes from a note, so both lists are known from the notes alone.
-/

namespace ShaderScript

namespace Library

theorem bisect?_name {table : Array Symbol} {name : String} {steps low width : Nat} {found : Symbol}
    (h : bisect? table name steps low width = some found) : found ∈ table ∧ found.name = name := by
  fun_induction bisect? table name steps low width with
  | case1 => cases h
  | case2 => cases h
  | case3 => cases h
  | case4 _ _ _ _ _ entry hentry hname =>
    cases h
    exact ⟨Array.mem_of_getElem? hentry, hname⟩
  | case5 _ _ _ _ _ _ _ _ _ ih => exact ih h
  | case6 _ _ _ _ _ _ _ _ _ ih => exact ih h

/-- A symbol is an entry of the table. -/
theorem mem_symbols_of_isSymbol {name : String} (h : isSymbol name) :
    ∃ symbol ∈ symbols, symbol.name = name := by
  obtain ⟨found, hf⟩ := Option.isSome_iff_exists.mp h
  exact ⟨found, bisect?_name hf⟩

theorem isAlphanum_of_isSymbol {name : String} (h : isSymbol name) :
    ∀ c ∈ name.toList, c.isAlphanum := by
  obtain ⟨symbol, hs, rfl⟩ := mem_symbols_of_isSymbol h
  have hall : symbols.all fun symbol => symbol.name.toList.all Char.isAlphanum := by decide +kernel
  exact List.all_eq_true.mp (Array.all_eq_true'.mp hall symbol hs)

end Library

namespace Scope

/-- No reserved name is in the library, so the list of reserved names hides nothing. -/
theorem not_isSymbol_of_mem_reserved {name : String} (h : name ∈ reserved) :
    Library.isSymbol name = false := by
  obtain rfl := List.mem_singleton.mp h
  decide +kernel

/-- A name without a point is its own root. -/
theorem rootName_eq_self {name : String} (h : '.' ∉ name.toList) : rootName name = name := by
  have hall : ∀ c ∈ name.toList, (c != '.') = true := by
    intro c hc
    rw [bne_iff_ne]
    rintro rfl
    exact h hc
  rw [rootName, List.takeWhile_eq_self_iff.mpr hall, String.ofList_toList]

/-! ## Notes one after another -/

theorem mem_addName {names : List String} {name other : String} :
    other ∈ addName names name ↔ other ∈ names ∨ other = name := by
  unfold addName
  split
  · constructor
    · exact .inl
    · rintro (h | rfl) <;> assumption
  · simp

theorem recordAll_append (scope : Scope) (before after : List PlacedNote) :
    scope.recordAll (before ++ after) = (scope.recordAll before).recordAll after := by
  simp [recordAll]

theorem recordAll_cons (scope : Scope) (placed : PlacedNote) (rest : List PlacedNote) :
    scope.recordAll (placed :: rest) = (scope.record placed).recordAll rest := by
  simp [recordAll]

/-! ## Names that are asked for -/

/-- The note brings the name into the imports of a scope with these globals. -/
inductive Imports (globals : List String) (name : String) : PlacedNote → Prop
  | mention {bound : List String} {full : String} (hr : rootName full = name)
    (hs : Library.isSymbol name) (hg : name ∉ globals) (hb : name ∉ bound) :
    Imports globals name ⟨bound, .mention full⟩
  | require {bound : List String} : Imports globals name ⟨bound, .require name⟩

/-- One note imports at most one name, and exactly under the conditions of `Imports`. -/
theorem mem_imports_record {scope : Scope} {placed : PlacedNote} {name : String} :
    name ∈ (scope.record placed).imports ↔
      name ∈ scope.imports ∨ Imports scope.globals name placed := by
  obtain ⟨bound, note⟩ := placed
  cases note with
  | mention full =>
    simp only [record]
    split
    · rename_i h
      simp only [imports?, Bool.and_eq_true, decide_eq_true_eq] at h
      rw [mem_addName]
      refine or_congr_right ⟨?_, ?_⟩
      · rintro rfl
        exact .mention rfl h.1.1.1 h.1.1.2 h.1.2
      · rintro ⟨rfl, -, -, -⟩
        rfl
    · rename_i h
      refine ⟨.inl, ?_⟩
      rintro (hm | ⟨rfl, hs, hg, hb⟩)
      · exact hm
      · have hr : rootName full ∉ reserved := fun hr => by
          simp [not_isSymbol_of_mem_reserved hr] at hs
        simp [imports?, hs, hg, hb, hr] at h
  | require required =>
    simp only [record, mem_addName]
    refine or_congr_right ⟨?_, ?_⟩
    · rintro rfl
      exact .require
    · rintro ⟨⟩
      rfl
  | declare declared =>
    refine ⟨.inl, ?_⟩
    rintro (hm | hi)
    · exact hm
    · cases hi
  | report diagnostic =>
    refine ⟨.inl, ?_⟩
    rintro (hm | hi)
    · exact hm
    · cases hi

theorem mem_globals_record {scope : Scope} {placed : PlacedNote} {name : String} :
    name ∈ (scope.record placed).globals ↔
      name ∈ scope.globals ∨ placed.note = .declare name := by
  obtain ⟨bound, note⟩ := placed
  cases note with
  | mention full =>
    simp only [record]
    split <;> simp
  | require required => simp [record]
  | declare declared => simp [record, mem_addName, eq_comm]
  | report diagnostic => simp [record]

theorem mem_globals_recordAll {scope : Scope} {notes : List PlacedNote} {name : String} :
    name ∈ (scope.recordAll notes).globals ↔
      name ∈ scope.globals ∨ ∃ placed ∈ notes, placed.note = .declare name := by
  induction notes generalizing scope with
  | nil => simp [recordAll]
  | cons placed rest ih =>
    rw [recordAll_cons, ih, mem_globals_record]
    simp [or_assoc]

/-- Every imported name was brought in by a note, with the globals of the notes before it. -/
theorem mem_imports_recordAll {scope : Scope} {notes : List PlacedNote} {name : String} :
    name ∈ (scope.recordAll notes).imports ↔
      name ∈ scope.imports ∨ ∃ before placed after, notes = before ++ placed :: after ∧
        Imports (scope.recordAll before).globals name placed := by
  induction notes generalizing scope with
  | nil => simp [recordAll]
  | cons first rest ih =>
    rw [recordAll_cons, ih, mem_imports_record, or_assoc]
    refine or_congr_right ⟨?_, ?_⟩
    · rintro (hf | ⟨before, placed, after, rfl, hi⟩)
      · exact ⟨[], first, rest, rfl, hf⟩
      · exact ⟨first :: before, placed, after, rfl, by rwa [recordAll_cons]⟩
    · rintro ⟨before, placed, after, he, hi⟩
      cases before with
      | nil =>
        obtain ⟨rfl, rfl⟩ := List.cons.inj he
        exact .inl hi
      | cons head before =>
        obtain ⟨rfl, rfl⟩ := List.cons.inj he
        exact .inr ⟨before, placed, after, rfl, by rwa [recordAll_cons] at hi⟩

/-- A library name that is mentioned is bound in the end: by an import, as a global name, or around
its mention. -/
theorem bound_of_mention {scope : Scope} {notes : List PlacedNote} {bound : List String}
    {full : String} (hm : ⟨bound, .mention full⟩ ∈ notes) (hs : Library.isSymbol (rootName full)) :
    rootName full ∈ (scope.recordAll notes).imports ∨
      rootName full ∈ (scope.recordAll notes).globals ∨ rootName full ∈ bound := by
  obtain ⟨before, after, rfl⟩ := List.append_of_mem hm
  by_cases hb : rootName full ∈ bound
  · exact .inr (.inr hb)
  by_cases hg : rootName full ∈ (scope.recordAll before).globals
  · refine .inr (.inl ?_)
    rw [recordAll_append]
    exact mem_globals_recordAll.mpr (.inl hg)
  · refine .inl (mem_imports_recordAll.mpr (.inr ?_))
    exact ⟨before, _, after, rfl, .mention rfl hs hg hb⟩

theorem mem_imports_of_require {scope : Scope} {notes : List PlacedNote} {bound : List String}
    {name : String} (hm : ⟨bound, .require name⟩ ∈ notes) :
    name ∈ (scope.recordAll notes).imports := by
  obtain ⟨before, after, rfl⟩ := List.append_of_mem hm
  exact mem_imports_recordAll.mpr (.inr ⟨before, _, after, rfl, .require⟩)

end Scope

end ShaderScript
