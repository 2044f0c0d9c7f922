import ShaderScript.Proofs.Traces

/-!
# Diagnostics are exact

A program has a diagnostic of some kind exactly when it has a defect of that kind. The defects are
read off the tree, with no regard to what is emitted for it.
-/

namespace ShaderScript

namespace Program

/-- The program has a defect of this kind. A function counts wherever it stands, unless it stands
directly at the top level; an unknown node and an open switch count outside nested functions. -/
def Has (program : Program) : Defect → Prop
  | .unknownNode => ∃ root ∈ program.roots, root.Sees .unknown
  | .nestedFunction => ∃ root ∈ program.roots, ∃ declaration, root.Contains (.function declaration)
  | .unterminatedCases =>
    ∃ root ∈ program.roots, ∃ discriminant cases,
      root.Sees (.switch discriminant cases) ∧ EndsOpen cases

theorem has_iff (program : Program) (defect : Defect) :
    program.Has defect ↔ ∃ root ∈ program.roots, root.Bears (.defect defect) := by
  cases defect with
  | unknownNode =>
    refine exists_mem_congr fun root _ => ⟨fun h => ⟨.unknown, h, rfl⟩, ?_⟩
    rintro ⟨inner, hs, hd⟩
    cases inner <;> simp_all [Node.Shows]
  | nestedFunction =>
    refine exists_mem_congr fun root _ => ⟨?_, ?_⟩
    · rintro ⟨declaration, hc⟩
      obtain ⟨outer, hs⟩ := Node.sees_function_of_contains hc
      exact ⟨_, hs, rfl⟩
    · rintro ⟨inner, hs, hd⟩
      cases inner with
      | function declaration => exact ⟨declaration, Node.contains_of_sees hs⟩
      | _ => simp [Node.Shows] at hd
  | unterminatedCases =>
    refine exists_mem_congr fun root _ => ⟨?_, ?_⟩
    · rintro ⟨discriminant, cases, hs, ho⟩
      exact ⟨_, hs, .inr ⟨rfl, ho⟩⟩
    · rintro ⟨inner, hs, hd⟩
      cases inner with
      | switch discriminant cases =>
        obtain hd | ⟨-, ho⟩ := hd
        · cases hd
        · exact ⟨discriminant, cases, hs, ho⟩
      | _ => simp [Node.Shows] at hd

end Program

/-- The diagnostics of a kind are the notes that report it. -/
theorem exists_diagnostic_iff (placed : List PlacedNote) (defect : Defect) :
    (∃ diagnostic ∈ diagnostics placed, diagnostic.defect = defect) ↔
      Leaves (.defect defect) (placed.map PlacedNote.note) := by
  simp only [diagnostics, Leaves, List.mem_filterMap, exists_mem_map_iff]
  constructor
  · rintro ⟨diagnostic, ⟨entry, he, hd⟩, rfl⟩
    refine ⟨entry, he, ?_⟩
    cases hnote : entry.note <;> simp_all
  · rintro ⟨entry, he, ht⟩
    cases hnote : entry.note with
    | report diagnostic => exact ⟨diagnostic, ⟨entry, he, by rw [hnote]⟩, by simp_all⟩
    | _ => simp [hnote] at ht

/-- Diagnostics are sound and complete: there is one of some kind exactly when the program has a
defect of that kind, so there is none exactly when it has no defect at all. -/
theorem diagnostics_iff_defects (program : Program) (options : Options) :
    ((program.document options).diagnostics = [] ↔ ∀ defect, ¬ program.Has defect) ∧
      ∀ defect, (∃ diagnostic ∈ (program.document options).diagnostics,
        diagnostic.defect = defect) ↔ program.Has defect := by
  have hkind : ∀ defect, (∃ diagnostic ∈ (program.document options).diagnostics,
      diagnostic.defect = defect) ↔ program.Has defect := by
    intro defect
    rw [Program.has_iff, Program.document, exists_diagnostic_iff, Program.sections,
      leaves_sections]
    simp [Program.roots]
  refine ⟨?_, hkind⟩
  rw [List.eq_nil_iff_forall_not_mem]
  constructor
  · intro hnone defect hd
    obtain ⟨diagnostic, hm, -⟩ := (hkind defect).mpr hd
    exact hnone diagnostic hm
  · intro hnone diagnostic hm
    exact hnone diagnostic.defect ((hkind _).mp ⟨diagnostic, hm, rfl⟩)

end ShaderScript
