import Mathlib.Data.Set.Function
import ShaderScript.Emit.Document
import ShaderScript.Proofs.Switches

/-!
# The body that a switch runs

A switch is entered at the label that has the value of its discriminant, or else at its default
case, and runs the first statements from there on. Its chain does the same, with one exception: an
empty default case is a link of the chain, and the statements of later cases are not looked for. So
the chain runs what the switch runs exactly if no case with statements comes after an empty default.
-/

namespace ShaderScript

namespace Branch

variable {V : Type} [DecidableEq V]

/-- The position of the label that has the value, or else of the default case. -/
def entered? (value : Nat → V) (v : V) (cases : List (Branch Node)) : Option Nat :=
  ((cases.zipIdx.find? fun (branch, position) => !branch.isDefault && value position == v).or
    (cases.zipIdx.find? fun (branch, _) => branch.isDefault)).map Prod.snd

/-- The body of the first case from a position on that has statements. -/
def bodyFrom (cases : List (Branch Node)) (position : Nat) : List Node :=
  ((cases.drop position).find? fun branch => !branch.body.isEmpty).elim [] Branch.body

/-- The statements that a switch runs if its labels have these values, and its discriminant has the
value `v`. -/
def selected (value : Nat → V) (v : V) (cases : List (Branch Node)) : List Node :=
  (entered? value v cases).elim [] (bodyFrom cases)

/-- The positions of the labels. -/
def labelled (cases : List (Branch Node)) : Set Nat :=
  { position | ∃ branch ∈ cases[position]?, branch.isDefault = false }

/-- A case with statements comes after an empty default case. -/
def HidesBody (cases : List (Branch Node)) : Prop :=
  ∃ before after, cases = before ++ ⟨none, []⟩ :: after ∧ ∃ later ∈ after, later.body ≠ []

end Branch

/-- The statements that a chain runs: those of the group that lists the value, or else those of the
default. -/
def chosen {V : Type} [DecidableEq V] (value : Nat → V) (v : V) (chain : List PlacedArm) :
    List Node :=
  (((chain.find? fun arm => arm.labels.any fun label => value label.1 == v).or
    (chain.find? Arm.isDefault)).bind Arm.body?).elim [] Prod.snd

/-- The first item of all lists is in the first list that has one. -/
theorem find?_any_of_find?_flatMap {α β : Type} {f : α → List β} {p : β → Bool} {items : List α}
    {found : β} (h : (items.flatMap f).find? p = some found) :
    ∃ item, items.find? (fun item => (f item).any p) = some item ∧ found ∈ f item := by
  induction items with
  | nil => cases h
  | cons item items ih =>
    rw [List.flatMap_cons, List.find?_append] at h
    cases hfirst : (f item).find? p with
    | some first =>
      obtain rfl : first = found := by simpa [hfirst] using h
      have hany : (f item).any p := List.any_eq_true.mpr
        ⟨first, List.mem_of_find?_eq_some hfirst, List.find?_some hfirst⟩
      exact ⟨item, by rw [List.find?_cons, hany], List.mem_of_find?_eq_some hfirst⟩
    | none =>
      obtain ⟨other, hother, hmem⟩ := ih (by simpa [hfirst] using h)
      have hany : (f item).any p = false := by simpa using hfirst
      exact ⟨other, by rw [List.find?_cons, hany, hother], hmem⟩

theorem find?_any_eq_none {α β : Type} {f : α → List β} {p : β → Bool} {items : List α}
    (h : (items.flatMap f).find? p = none) : items.find? (fun item => (f item).any p) = none := by
  simpa using h

namespace Branch

variable {V : Type} [DecidableEq V] {cases : List (Branch Node)}

/-! ## Where the chain is entered -/

/-- A search among the labels is a search among the cases. -/
theorem find?_labels_chain (value : Nat → V) (v : V) (cases : List (Branch Node)) :
    ((chain cases).flatMap Arm.labels).find? (fun label => value label.1 == v) =
      (cases.zipIdx.find? fun (branch, position) => !branch.isDefault && value position == v).bind
        fun (branch, position) => branch.condition.map (position, ·) := by
  have htest : (fun entry : Branch Node × Nat =>
        Option.any (fun label => value label.1 == v) (entry.1.placed entry.2).1) =
      fun entry => !entry.1.isDefault && value entry.2 == v := by
    funext ⟨⟨condition, body⟩, position⟩
    cases condition <;> simp [placed, Branch.isDefault]
  rw [chain, Arm.flatMap_labels_group, List.nil_append, placedFrom, List.filterMap_map,
    List.find?_filterMap]
  simp only [Function.comp_apply, htest]
  rfl

/-- A search for the default finds the first default case. -/
theorem find?_isDefault_chain (cases : List (Branch Node)) :
    (chain cases).find? Arm.isDefault =
      (cases.zipIdx.find? fun (branch, _) => branch.isDefault).map
        fun (branch, position) => .default (some (position, branch.body)) := by
  rw [← List.head?_filter, (isChainOf_chain cases).defaults, List.head?_map, List.head?_filter]

/-- From the position of a case on, that case is the first one. -/
theorem drop_zipIdx {branch : Branch Node} {position : Nat}
    (h : (branch, position) ∈ cases.zipIdx) :
    ∃ rest, cases.zipIdx.drop position = (branch, position) :: rest := by
  have hat : cases.zipIdx[position]? = some (branch, position) := by
    rw [List.getElem?_zipIdx, (List.mk_mem_zipIdx_iff_getElem?.mp h)]
    simp
  obtain ⟨hlt, hget⟩ := List.getElem?_eq_some_iff.mp hat
  exact ⟨_, by rw [List.drop_eq_getElem_cons hlt, hget]⟩

theorem firstBody?_of_isDefault {branch : Branch Node} {position : Nat}
    (h : (branch, position) ∈ cases.zipIdx) (hdefault : branch.isDefault) :
    firstBody? cases position = some (position, branch.body) := by
  obtain ⟨rest, hrest⟩ := drop_zipIdx h
  simp [firstBody?, hrest, holdsBody, hdefault]

/-- A chain runs the first body from the position on where its switch is entered. -/
theorem chosen_chain (value : Nat → V) (v : V) (cases : List (Branch Node)) :
    chosen value v (chain cases) =
      (entered? value v cases).elim [] fun position =>
        (firstBody? cases position).elim [] Prod.snd := by
  have hlabels := find?_labels_chain value v cases
  unfold chosen entered?
  cases hfind : cases.zipIdx.find? fun (branch, position) =>
      !branch.isDefault && value position == v with
  | some entry =>
    obtain ⟨⟨condition, body⟩, position⟩ := entry
    have htest := List.find?_some hfind
    cases condition with
    | none => simp [Branch.isDefault] at htest
    | some condition =>
      rw [hfind] at hlabels
      obtain ⟨arm, harm, hlabel⟩ := find?_any_of_find?_flatMap hlabels
      have hbody : arm.body? = firstBody? cases position := by
        have hmem := List.mem_of_find?_eq_some harm
        cases arm with
        | cases labels shared closed =>
          exact (isChainOf_chain cases).body _ _ _ hmem _ hlabel
        | default => cases hlabel
      rw [harm, Option.some_or, Option.bind_some, hbody]
      rfl
  | none =>
    rw [hfind] at hlabels
    rw [find?_any_eq_none hlabels, find?_isDefault_chain]
    cases hdefault : cases.zipIdx.find? fun (branch, _) => branch.isDefault with
    | none => rfl
    | some entry =>
      obtain ⟨branch, position⟩ := entry
      have htest : branch.isDefault := by simpa using List.find?_some hdefault
      have hfirst := firstBody?_of_isDefault (List.mem_of_find?_eq_some hdefault) htest
      simp [hfirst, Arm.body?]

/-! ## Empty default cases -/

theorem HidesBody.cons (branch : Branch Node) (h : HidesBody cases) :
    HidesBody (branch :: cases) := by
  obtain ⟨before, after, rfl, hlater⟩ := h
  exact ⟨branch :: before, after, rfl, hlater⟩

theorem HidesBody.of_drop {position : Nat} (h : HidesBody (cases.drop position)) :
    HidesBody cases := by
  obtain ⟨before, after, hcases, hlater⟩ := h
  refine ⟨cases.take position ++ before, after, ?_, hlater⟩
  rw [List.append_assoc, ← hcases, List.take_append_drop]

/-- The first case that is the default or has statements has the first statements, unless it is an
empty default case before other statements. -/
theorem body_find?_holdsBody (h : ¬ HidesBody cases) :
    (cases.find? holdsBody).elim [] Branch.body =
      (cases.find? fun branch => !branch.body.isEmpty).elim [] Branch.body := by
  induction cases with
  | nil => rfl
  | cons branch rest ih =>
    have hrest := ih fun hhides => h (hhides.cons branch)
    obtain ⟨condition, body⟩ := branch
    cases body with
    | cons node nodes => simp [holdsBody]
    | nil =>
      cases condition with
      | some condition => simpa [holdsBody, Branch.isDefault] using hrest
      | none =>
        have hnone : (rest.find? fun branch => !branch.body.isEmpty) = none := by
          rw [List.find?_eq_none]
          intro later hlater hbody
          exact h ⟨[], rest, rfl, later, hlater, by simpa using hbody⟩
        simp [holdsBody, Branch.isDefault, hnone]

theorem body_firstBody? (cases : List (Branch Node)) (position : Nat) :
    (firstBody? cases position).elim [] Prod.snd =
      ((cases.drop position).find? holdsBody).elim [] Branch.body := by
  have hdrop : cases.drop position = (cases.zipIdx.drop position).map Prod.fst := by
    rw [List.map_drop, List.zipIdx_map_fst]
  rw [hdrop, List.find?_map, firstBody?, Function.comp_def]
  cases (cases.zipIdx.drop position).find? fun entry => entry.1.holdsBody <;> rfl

/-- A chain runs what its switch runs, unless a body is hidden. -/
theorem chosen_eq_selected (h : ¬ HidesBody cases) (value : Nat → V) (v : V) :
    chosen value v (chain cases) = selected value v cases := by
  rw [chosen_chain, selected]
  congr 1
  funext position
  rw [body_firstBody?, body_find?_holdsBody fun hhides => h hhides.of_drop]
  rfl

/-- If a body is hidden behind the only default case, then the chain misses it where no label
matches. -/
theorem chosen_ne_selected (hdefault : (cases.filter Branch.isDefault).length ≤ 1)
    (h : HidesBody cases) :
    chosen id cases.length (chain cases) ≠ selected id cases.length cases := by
  obtain ⟨before, after, rfl, later, hlater, hbody⟩ := h
  generalize hcases : before ++ ⟨none, []⟩ :: after = cases at *
  have hdrop : cases.drop before.length = ⟨none, []⟩ :: after := by rw [← hcases, List.drop_left]
  have hentered : entered? id cases.length cases = some before.length := by
    have hlabel : (cases.zipIdx.find? fun (branch, position) =>
        !branch.isDefault && id position == cases.length) = none := by
      rw [List.find?_eq_none]
      rintro ⟨branch, position⟩ hentry
      have hlt : position < cases.length := (List.mem_zipIdx' hentry).1
      simp [Nat.ne_of_lt hlt]
    have hfirst : (cases.zipIdx.find? fun (branch, _) => branch.isDefault) =
        some (⟨none, []⟩, before.length) := by
      have hbefore : (before.zipIdx.find? fun (branch, _) => branch.isDefault) = none := by
        rw [List.find?_eq_none]
        rintro ⟨branch, position⟩ hentry hother
        have hmem : branch ∈ before.filter Branch.isDefault :=
          List.mem_filter.mpr ⟨List.fst_mem_of_mem_zipIdx hentry, hother⟩
        have hpos := List.length_pos_of_mem hmem
        have hself : (Branch.mk none [] : Branch Node).isDefault := rfl
        rw [← hcases, List.filter_append, List.filter_cons_of_pos hself, List.length_append,
          List.length_cons] at hdefault
        omega
      rw [← hcases, List.zipIdx_append, List.find?_append, hbefore]
      simp [Branch.isDefault]
    rw [entered?, hlabel, hfirst]
    rfl
  obtain ⟨first, hfound⟩ : ∃ first, (after.find? fun branch => !branch.body.isEmpty) = some first :=
    Option.isSome_iff_exists.mp (List.find?_isSome.mpr ⟨later, hlater, by simpa using hbody⟩)
  have hne : first.body ≠ [] := by simpa using List.find?_some hfound
  rw [chosen_chain, selected, hentered]
  simpa [body_firstBody?, bodyFrom, hdrop, holdsBody, Branch.isDefault, hfound] using hne.symm

end Branch

/-- The text of a switch is that of its chain. The chain always runs the first body from the
position on where the switch is entered, where the default case counts with its own body. With at
most one default case, that is what the switch runs, for all values of its labels and of its
discriminant, exactly if no statements come after an empty default case. -/
theorem switch_selection_iff (context : Context) (discriminant : Node) (cases : List (Branch Node))
    (hdefault : (cases.filter Branch.isDefault).length ≤ 1) :
    (emit context (.switch discriminant cases)).text =
        writtenSwitch context discriminant (Branch.chain cases) ∧
      (∀ (V : Type) [DecidableEq V] (value : Nat → V) (v : V),
        chosen value v (Branch.chain cases) =
          (Branch.entered? value v cases).elim [] fun position =>
            (Branch.firstBody? cases position).elim [] Prod.snd) ∧
      ((∀ (V : Type) [DecidableEq V] (value : Nat → V), Set.InjOn value (Branch.labelled cases) →
          ∀ v, chosen value v (Branch.chain cases) = Branch.selected value v cases) ↔
        ¬ Branch.HidesBody cases) := by
  refine ⟨text_emit_switch context discriminant cases, ?_, ?_, ?_⟩
  · intro V _ value v
    exact Branch.chosen_chain value v cases
  · intro hsame hhides
    exact Branch.chosen_ne_selected hdefault hhides
      (hsame Nat id (Set.injOn_id _) cases.length)
  · intro hhides V _ value _ v
    exact Branch.chosen_eq_selected hhides value v

/-- A label before the default case and one behind it, neither with statements of its own. -/
theorem empty_labels_around_default :
    let work : Node := .call "work" []
    let cases : List (Branch Node) :=
      [⟨some (.number "0" .float), []⟩, ⟨none, [work]⟩, ⟨some (.number "1" .float), []⟩]
    (cases.filter Branch.isDefault).length ≤ 1 ∧ ¬ Branch.HidesBody cases ∧
      chosen id 0 (Branch.chain cases) = Branch.selected id 0 cases ∧
        Branch.selected id 0 cases = [work] := by
  intro work cases
  have hdefault : (cases.filter Branch.isDefault).length ≤ 1 := by decide
  have hhides : ¬ Branch.HidesBody cases := by
    rintro ⟨before, after, hcases, -⟩
    have hmem : (⟨none, []⟩ : Branch Node) ∈ cases := by simp [hcases]
    simp [cases] at hmem
  have hiff :=
    (switch_selection_iff (Section.context .default) (.accessor "mode") cases hdefault).2.2
  exact ⟨hdefault, hhides, hiff.mpr hhides Nat id (Set.injOn_id _) 0, rfl⟩

/-- An empty default case before a label with statements runs nothing where no label matches. -/
theorem empty_default_hides_body :
    let work : Node := .call "work" []
    let cases : List (Branch Node) := [⟨none, []⟩, ⟨some (.number "1" .float), [work]⟩]
    (cases.filter Branch.isDefault).length ≤ 1 ∧ Set.InjOn id (Branch.labelled cases) ∧
      chosen id 0 (Branch.chain cases) = [] ∧ Branch.selected id 0 cases = [work] := by
  intro work cases
  exact ⟨by decide, Set.injOn_id _, rfl, rfl⟩

end ShaderScript
