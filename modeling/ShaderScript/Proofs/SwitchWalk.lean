import ShaderScript.Proofs.Switches

/-!
# Walking the cases of a switch

The chain of a switch can also be found with an index into its cases: an outer loop starts a link of
the chain at the index, and for a label an inner loop moves the same index to the last case of the
group. Every step looks its cases up; a look-up that fails ends the walk without a chain. This never
happens, and the index only grows, so that the walk ends with the whole chain.
-/

namespace ShaderScript

namespace Branch

/-- The inner loop: goes on while the case has no statements and the next one is not the default. -/
def gather? (cases : List (Branch Node)) (index : Nat) (labels : List (Nat × Node)) :
    Option (Nat × List (Nat × Node)) :=
  match cases[index]? with
  | none => none
  | some current =>
    if _h : current.body.isEmpty ∧ index + 1 < cases.length then
      match cases[index + 1]? with
      | none => none
      | some next =>
        match next.condition with
        | none => some (index, labels)
        | some condition => gather? cases (index + 1) (labels ++ [(index + 1, condition)])
    else some (index, labels)
termination_by cases.length - index

/-- A group that ends at the index, where `last` stands. If it has no statements and the default
case comes next, then the group has the body of that. -/
def closeGroup (cases : List (Branch Node)) (index : Nat) (last : Branch Node)
    (labels : List (Nat × Node)) : PlacedArm :=
  let own := if last.body.isEmpty then none else some (index, last.body)
  let shared :=
    match cases[index + 1]? with
    | some next =>
      if last.body.isEmpty && next.isDefault then some (index + 1, next.body) else own
    | none => own
  .cases labels shared !(last.body.isEmpty && index + 1 == cases.length)

theorem le_of_gather? {cases : List (Branch Node)} {index last : Nat}
    {labels all : List (Nat × Node)} (h : gather? cases index labels = some (last, all)) :
    index ≤ last := by
  fun_induction gather? cases index labels <;> grind

/-- The outer loop: starts a link of the chain at the index. -/
def walk? (cases : List (Branch Node)) (index : Nat) : Option (List PlacedArm) :=
  if _h : index < cases.length then
    match cases[index]? with
    | none => none
    | some current =>
      match current.condition with
      | none => (walk? cases (index + 1)).map (.default (some (index, current.body)) :: ·)
      | some first =>
        match _hgather : gather? cases index [(index, first)] with
        | none => none
        | some (last, labels) =>
          match cases[last]? with
          | none => none
          | some final => (walk? cases (last + 1)).map (closeGroup cases last final labels :: ·)
  else some []
termination_by cases.length - index
decreasing_by
  · omega
  · have := le_of_gather? _hgather
    omega

theorem drop_eq_cons {cases : List (Branch Node)} {index : Nat} {branch : Branch Node}
    (h : cases[index]? = some branch) : cases.drop index = branch :: cases.drop (index + 1) := by
  obtain ⟨hlt, rfl⟩ := List.getElem?_eq_some_iff.mp h
  exact List.drop_eq_getElem_cons hlt

/-- From a label on, the inner loop finds the rest of its group. -/
theorem gather?_eq_some (pending : List (Nat × Node)) {cases : List (Branch Node)} {index : Nat}
    {condition : Node} {body : List Node} (h : cases[index]? = some ⟨some condition, body⟩) :
    ∃ last final labels,
      gather? cases index (pending ++ [(index, condition)]) = some (last, labels) ∧
      cases[last]? = some final ∧
      Arm.group pending (placedFrom index (cases.drop index)) =
        closeGroup cases last final labels ::
          Arm.group [] (placedFrom (last + 1) (cases.drop (last + 1))) := by
  rw [drop_eq_cons h, gather?, h]
  cases body with
  | cons node nodes =>
    refine ⟨index, _, pending ++ [(index, condition)], rfl, h, ?_⟩
    cases hnext : cases[index + 1]? <;> simp [Arm.group, closeGroup, hnext]
  | nil =>
    by_cases hlt : index + 1 < cases.length
    · obtain ⟨⟨label, own⟩, hnext⟩ : ∃ next, cases[index + 1]? = some next :=
        ⟨_, List.getElem?_eq_getElem hlt⟩
      dsimp only
      rw [dif_pos ⟨rfl, hlt⟩, hnext]
      cases label with
      | none =>
        refine ⟨index, _, pending ++ [(index, condition)], rfl, h, ?_⟩
        have hne : (index + 1 == cases.length) = false := by simp; omega
        rw [drop_eq_cons hnext]
        cases pending <;> simp [Arm.group, closeGroup, hnext, hne, Branch.isDefault]
      | some label =>
        obtain ⟨last, final, labels, hgather, hlast, hgroup⟩ :=
          gather?_eq_some (pending ++ [(index, condition)]) hnext
        exact ⟨last, final, labels, hgather, hlast, by rw [← hgroup]; simp [Arm.group]⟩
    · have hlength : index + 1 = cases.length := by
        have := (List.getElem?_eq_some_iff.mp h).1
        omega
      refine ⟨index, _, pending ++ [(index, condition)], dif_neg (fun hgo => hlt hgo.2), h, ?_⟩
      simp [Arm.group, closeGroup, hlength]
termination_by cases.length - index

theorem walk?_eq_some (cases : List (Branch Node)) (index : Nat) :
    walk? cases index = some (Arm.group [] (placedFrom index (cases.drop index))) := by
  rw [walk?]
  by_cases hlt : index < cases.length
  · obtain ⟨⟨condition, body⟩, hcase⟩ : ∃ current, cases[index]? = some current :=
      ⟨_, List.getElem?_eq_getElem hlt⟩
    rw [dif_pos hlt, hcase]
    cases condition with
    | none =>
      dsimp only
      rw [walk?_eq_some cases (index + 1), drop_eq_cons hcase]
      simp [Arm.group]
    | some condition =>
      obtain ⟨last, final, labels, hgather, hlast, hgroup⟩ := gather?_eq_some [] hcase
      have hle := le_of_gather? hgather
      dsimp only
      split
      · rename_i hnone
        cases hgather.symm.trans hnone
      · rename_i last' labels' hsome
        obtain ⟨rfl, rfl⟩ := Prod.mk.inj (Option.some.inj (hgather.symm.trans hsome))
        rw [hlast, hgroup, walk?_eq_some cases (last + 1)]
        rfl
  · have hend : cases.drop index = [] := List.drop_eq_nil_of_le (by omega)
    rw [dif_neg hlt, hend]
    rfl
termination_by cases.length - index

end Branch

/-- A switch is emitted as a chain of groups and defaults. The walk finds it, whatever the cases
are, and it has every case in exactly one place. -/
theorem switch_chain_exact (context : Context) (discriminant : Node) (cases : List (Branch Node)) :
    ∃ chain, Branch.walk? cases 0 = some chain ∧
      (emit context (.switch discriminant cases)).text =
        writtenSwitch context discriminant chain ∧
      IsChainOf cases chain :=
  ⟨Branch.chain cases, Branch.walk?_eq_some cases 0, text_emit_switch context discriminant cases,
    Branch.isChainOf_chain cases⟩

end ShaderScript
