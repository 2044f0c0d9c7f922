import Mathlib.Data.List.Range
import ShaderScript.Proofs.Emission

/-!
# The chain of a switch

Cases are grouped in one pass that keeps the labels which wait for a body. With their positions the
cases show what the groups are made of: the groups and the defaults take up the positions one after
another, and the body of a group is the first one at or after each of its labels. A walk with two
nested loops that share an index never leaves the cases and finds the same chain.
-/

namespace ShaderScript

open Script

/-! ## Groups -/

namespace Arm

variable {α β : Type} {pending labels : List α} {entries : List (Option α × Option β)}
  {body : Option β} {closed : Bool}

def isDefault : Arm α β → Bool
  | .cases .. => false
  | .default _ => true

/-- How a group of cases ends: there are no more cases, the default case comes next, or the last
label has a body. -/
inductive Closes : List (Option α × Option β) → (last : List α) → Option β → (closed : Bool) → Prop
  | ends : Closes [] [] none false
  | default (body : Option β) (rest : List (Option α × Option β)) :
    Closes ((none, body) :: rest) [] body true
  | body (label : α) (body : β) (rest : List (Option α × Option β)) :
    Closes ((some label, some body) :: rest) [label] (some body) true

/-- A group has a run of consecutive labels without bodies, with the pending labels before them if
it is the first group, and ends in one of three ways. -/
theorem run_of_mem_group (h : .cases labels body closed ∈ group pending entries) :
    labels ≠ [] ∧ ∃ before held run last rest,
      entries = before ++ run.map (fun label => (some label, none)) ++ rest ∧
      labels = held ++ run ++ last ∧ Closes rest last body closed ∧
      (held = [] ∨ held = pending ∧ before = []) := by
  fun_induction group pending entries with
  | case1 => cases h
  | case2 pending hpending =>
    obtain ⟨rfl, rfl, rfl⟩ := Arm.cases.inj (List.mem_singleton.mp h)
    exact ⟨hpending, [], labels, [], [], [], rfl, by simp, .ends, .inr ⟨rfl, rfl⟩⟩
  | case3 own rest ih =>
    obtain ⟨hne, before, held, run, last, after, rfl, hlabels, hcloses, hheld⟩ :=
      ih (by simpa using h)
    exact ⟨hne, (none, own) :: before, held, run, last, after, rfl, hlabels, hcloses,
      .inl (hheld.elim id And.left)⟩
  | case4 pending own rest hpending ih =>
    rcases List.mem_cons.mp h with heq | h
    · obtain ⟨rfl, rfl, rfl⟩ := Arm.cases.inj heq
      exact ⟨hpending, [], labels, [], [], _, rfl, by simp, .default body rest, .inr ⟨rfl, rfl⟩⟩
    · obtain ⟨hne, before, held, run, last, after, rfl, hlabels, hcloses, hheld⟩ :=
        ih (by simpa using h)
      exact ⟨hne, (none, own) :: before, held, run, last, after, rfl, hlabels, hcloses,
        .inl (hheld.elim id And.left)⟩
  | case5 pending label rest ih =>
    obtain ⟨hne, before, held, run, last, after, rfl, rfl, hcloses, hheld⟩ := ih h
    refine ⟨hne, ?_⟩
    rcases hheld with rfl | ⟨rfl, rfl⟩
    · exact ⟨(some label, none) :: before, [], run, last, after, rfl, rfl, hcloses, .inl rfl⟩
    · exact ⟨[], pending, label :: run, last, after, rfl, by simp, hcloses, .inr ⟨rfl, rfl⟩⟩
  | case6 pending label own rest ih =>
    rcases List.mem_cons.mp h with heq | h
    · obtain ⟨rfl, rfl, rfl⟩ := Arm.cases.inj heq
      exact ⟨by simp, [], pending, [], [label], _, rfl, by simp, .body label own rest,
        .inr ⟨rfl, rfl⟩⟩
    · obtain ⟨hne, before, held, run, last, after, rfl, hlabels, hcloses, hheld⟩ := ih h
      exact ⟨hne, (some label, some own) :: before, held, run, last, after, rfl, hlabels, hcloses,
        .inl (hheld.elim id And.left)⟩

theorem Closes.findSome? {rest : List (Option α × Option β)} {last : List α}
    (h : Closes rest last body closed)
    (hdefault : ∀ entry ∈ rest, entry.1 = none → entry.2 ≠ none) :
    rest.findSome? Prod.snd = body := by
  cases h with
  | ends => rfl
  | default _ rest =>
    obtain ⟨own, rfl⟩ := Option.ne_none_iff_exists'.mp (hdefault _ List.mem_cons_self rfl)
    rfl
  | body => rfl

/-- Each label of a group is that of an entry, and from there on the body of the group is the first
one. Before the last label there are none. -/
theorem entries_of_mem_group (h : .cases labels body closed ∈ group [] entries)
    (hdefault : ∀ entry ∈ entries, entry.1 = none → entry.2 ≠ none) :
    labels ≠ [] ∧
      (∀ label ∈ labels, ∃ front own back, entries = front ++ (some label, own) :: back ∧
        ((some label, own) :: back).findSome? Prod.snd = body) ∧
      ∀ label ∈ labels.dropLast, ∃ front back, entries = front ++ (some label, none) :: back := by
  obtain ⟨hne, before, held, run, last, rest, rfl, rfl, hcloses, hheld⟩ := run_of_mem_group h
  obtain rfl : held = [] := hheld.elim id And.left
  have hrest : rest.findSome? Prod.snd = body :=
    hcloses.findSome? fun entry hentry => hdefault entry (List.mem_append_right _ hentry)
  have hrun : ∀ label ∈ run, ∃ front back,
      before ++ run.map (fun label => (some label, none)) ++ rest =
        front ++ (some label, none) :: back ∧ back.findSome? Prod.snd = body := by
    intro label hlabel
    obtain ⟨front, back, rfl⟩ := List.append_of_mem hlabel
    refine ⟨before ++ front.map (fun label => (some label, none)),
      back.map (fun label => (some label, none)) ++ rest, by simp, ?_⟩
    have hback : (back.map fun label => (some label, (none : Option β))).findSome? Prod.snd =
        none := by
      simp
    rw [List.findSome?_append, hback, hrest]
    rfl
  refine ⟨hne, ?_, ?_⟩
  · intro label hlabel
    rcases List.mem_append.mp hlabel with hlabel | hlabel
    · obtain ⟨front, back, heq, hbody⟩ := hrun label hlabel
      exact ⟨front, none, back, heq, hbody⟩
    · cases hcloses with
      | ends | default => cases hlabel
      | body own body rest =>
        obtain rfl := List.mem_singleton.mp hlabel
        exact ⟨_, some body, rest, rfl, rfl⟩
  · intro label hlabel
    have hwaiting : label ∈ run := by
      cases hcloses with
      | ends | default => exact List.dropLast_subset _ (by simpa using hlabel)
      | body => simpa using hlabel
    obtain ⟨front, back, heq, -⟩ := hrun label hwaiting
    exact ⟨front, back, heq⟩

/-- No label is lost, and none is moved. -/
theorem flatMap_labels_group (pending : List α) (entries : List (Option α × Option β)) :
    (group pending entries).flatMap Arm.labels = pending ++ entries.filterMap Prod.fst := by
  fun_induction group pending entries <;> simp_all [Arm.labels]

/-- The bodies of the arms are those of the cases; that of a default case may be there twice. -/
theorem mem_bodies_group (pending : List α)
    (entries : List (Option α × Option β)) (body : β) :
    body ∈ (group pending entries).filterMap body? ↔ body ∈ entries.filterMap Prod.snd := by
  fun_induction group pending entries with
  | case1 => simp
  | case2 pending hp => simp [body?]
  | case3 first rest ih => cases first <;> simp_all [body?]
  | case4 pending first rest hp ih => cases first <;> simp_all [body?]
  | case5 pending label rest ih => simpa using ih
  | case6 pending label first rest ih => simp_all [body?]

/-- The default cases stand in the chain as they are. -/
theorem filter_isDefault_group (pending : List α) (entries : List (Option α × Option β)) :
    (group pending entries).filter isDefault =
      (entries.filter fun entry => entry.1.isNone).map fun entry => .default entry.2 := by
  fun_induction group pending entries <;> simp_all [isDefault, List.filter_cons]

end Arm

/-! ## Cases with their positions -/

/-- A group of cases with their positions, or the default case with its position. -/
abbrev PlacedArm := Arm (Nat × Node) (Nat × List Node)

/-- The positions of the cases that are emitted as this link of the chain. -/
def Arm.positions : PlacedArm → List Nat
  | .cases labels _ _ => labels.map Prod.fst
  | .default body => body.toList.map Prod.fst

namespace Branch

/-- It is the default case, or it has statements. -/
def holdsBody (branch : Branch Node) : Bool :=
  branch.isDefault || !branch.body.isEmpty

/-- A case as an entry for grouping. -/
def placed (branch : Branch Node) (position : Nat) :
    Option (Nat × Node) × Option (Nat × List Node) :=
  (branch.condition.map (position, ·),
    if branch.holdsBody then some (position, branch.body) else none)

/-- The cases as entries for grouping, the first one at the given position. -/
def placedFrom (position : Nat) (cases : List (Branch Node)) :
    List (Option (Nat × Node) × Option (Nat × List Node)) :=
  (cases.zipIdx position).map fun (branch, position) => branch.placed position

/-- The chain that the cases of a switch become. -/
def chain (cases : List (Branch Node)) : List PlacedArm :=
  Arm.group [] (placedFrom 0 cases)

/-- The first case from a position on that is the default case or has statements: its own position
and its body. -/
def firstBody? (cases : List (Branch Node)) (position : Nat) : Option (Nat × List Node) :=
  ((cases.zipIdx.drop position).find? fun (branch, _) => branch.holdsBody).map
    fun (branch, position) => (position, branch.body)

section Placed

variable {cases : List (Branch Node)}

@[simp]
theorem placedFrom_nil (position : Nat) : placedFrom position [] = [] :=
  rfl

@[simp]
theorem placedFrom_cons (position : Nat) (branch : Branch Node) (rest : List (Branch Node)) :
    placedFrom position (branch :: rest) =
      branch.placed position :: placedFrom (position + 1) rest :=
  rfl

@[simp]
theorem placed_default (position : Nat) (body : List Node) :
    (Branch.mk none body).placed position = (none, some (position, body)) :=
  rfl

@[simp]
theorem placed_empty (position : Nat) (condition : Node) :
    (Branch.mk (some condition) []).placed position = (some (position, condition), none) :=
  rfl

@[simp]
theorem placed_body (position : Nat) (condition node : Node) (nodes : List Node) :
    (Branch.mk (some condition) (node :: nodes)).placed position =
      (some (position, condition), some (position, node :: nodes)) :=
  rfl

theorem placed_default_ne_none (cases : List (Branch Node)) :
    ∀ entry ∈ placedFrom 0 cases, entry.1 = none → entry.2 ≠ none := by
  intro entry hentry hnone
  obtain ⟨⟨⟨condition, body⟩, position⟩, -, rfl⟩ := List.mem_map.mp hentry
  obtain rfl : condition = none := by simpa [placed] using hnone
  simp

theorem getElem?_placedFrom (cases : List (Branch Node)) (index : Nat) :
    (placedFrom 0 cases)[index]? = cases[index]?.map (·.placed index) := by
  simp [placedFrom, Function.comp_def]

theorem firstBody?_eq_findSome? (cases : List (Branch Node)) (position : Nat) :
    firstBody? cases position = ((placedFrom 0 cases).drop position).findSome? Prod.snd := by
  rw [firstBody?, placedFrom, ← List.map_drop, List.findSome?_map]
  generalize cases.zipIdx.drop position = entries
  induction entries with
  | nil => rfl
  | cons entry entries ih =>
    obtain ⟨branch, position⟩ := entry
    by_cases hholds : branch.holdsBody
    · simp [placed, hholds]
    · simpa [placed, hholds] using ih

/-- A label stands at its position, and what follows it there decides its body. -/
theorem of_placedFrom_eq {front back : List (Option (Nat × Node) × Option (Nat × List Node))}
    {label : Nat × Node} {own : Option (Nat × List Node)}
    (h : placedFrom 0 cases = front ++ (some label, own) :: back) :
    label.1 = front.length ∧
      (∃ body, cases[label.1]? = some ⟨some label.2, body⟩ ∧ (own = none → body = [])) ∧
      firstBody? cases label.1 = ((some label, own) :: back).findSome? Prod.snd := by
  have hat : cases[front.length]?.map (·.placed front.length) = some (some label, own) := by
    rw [← getElem?_placedFrom, h]
    simp
  obtain ⟨⟨condition, body⟩, hcase, hplaced⟩ := Option.map_eq_some_iff.mp hat
  obtain ⟨hlabel, hown⟩ := Prod.mk.inj hplaced
  obtain ⟨condition, rfl, rfl⟩ := Option.map_eq_some_iff.mp hlabel
  refine ⟨rfl, ⟨body, hcase, ?_⟩, ?_⟩
  · rintro rfl
    cases body with
    | nil => rfl
    | cons node nodes => cases hown
  · rw [firstBody?_eq_findSome?, h, List.drop_left]

end Placed

end Branch

/-- The chain emits all cases. -/
structure IsChainOf (cases : List (Branch Node)) (chain : List PlacedArm) : Prop where
  /-- The links take up the cases one after another. -/
  positions : chain.flatMap Arm.positions = List.range cases.length
  /-- All conditions are listed in their order. -/
  conditions : (chain.flatMap Arm.labels).map Prod.snd = cases.filterMap Branch.condition
  /-- Each default case is a link of its own. -/
  defaults : chain.filter Arm.isDefault =
    (cases.zipIdx.filter fun entry => entry.1.isDefault).map fun entry =>
      .default (some (entry.2, entry.1.body))
  /-- A label belongs to the case at its position. -/
  label : ∀ labels body closed, .cases labels body closed ∈ chain → labels ≠ [] ∧
    ∀ label ∈ labels, (cases[label.1]?).bind Branch.condition = some label.2
  /-- The cases of a group are empty, apart from the last one. -/
  empty : ∀ labels body closed, .cases labels body closed ∈ chain →
    ∀ label ∈ labels.dropLast, (cases[label.1]?).map Branch.body = some []
  /-- The body of a group is the first one from each of its labels on. -/
  body : ∀ labels body closed, .cases labels body closed ∈ chain →
    ∀ label ∈ labels, body = Branch.firstBody? cases label.1

namespace Branch

variable {cases : List (Branch Node)} {labels : List (Nat × Node)}
  {body : Option (Nat × List Node)} {closed : Bool}

theorem flatMap_positions_group (pending : List (Nat × Node)) (position : Nat)
    (cases : List (Branch Node)) :
    (Arm.group pending (placedFrom position cases)).flatMap Arm.positions =
      pending.map Prod.fst ++ List.range' position cases.length := by
  induction cases generalizing pending position with
  | nil => cases pending <;> simp [Arm.group, Arm.positions]
  | cons branch rest ih =>
    obtain ⟨condition, body⟩ := branch
    rw [placedFrom_cons, List.length_cons, List.range'_succ]
    cases condition with
    | none => cases pending <;> simp [Arm.group, Arm.positions, ih]
    | some condition => cases body <;> simp [Arm.group, Arm.positions, ih]

/-- The groups of a chain, from the cases that they stand for. -/
theorem of_mem_chain (h : .cases labels body closed ∈ chain cases) :
    labels ≠ [] ∧
      (∀ label ∈ labels, (cases[label.1]?).bind Branch.condition = some label.2 ∧
        body = firstBody? cases label.1) ∧
      ∀ label ∈ labels.dropLast, (cases[label.1]?).map Branch.body = some [] := by
  obtain ⟨hne, hlabels, hwaiting⟩ := Arm.entries_of_mem_group h (placed_default_ne_none cases)
  refine ⟨hne, ?_, ?_⟩
  · intro label hlabel
    obtain ⟨front, own, back, hentries, hbody⟩ := hlabels label hlabel
    obtain ⟨-, ⟨statements, hcase, -⟩, hfirst⟩ := of_placedFrom_eq hentries
    exact ⟨by rw [hcase]; rfl, by rw [hfirst, hbody]⟩
  · intro label hlabel
    obtain ⟨front, back, hentries⟩ := hwaiting label hlabel
    obtain ⟨-, ⟨statements, hcase, hempty⟩, -⟩ := of_placedFrom_eq hentries
    rw [hcase, hempty rfl]
    rfl

theorem isChainOf_chain (cases : List (Branch Node)) : IsChainOf cases (chain cases) where
  positions := by
    rw [chain, flatMap_positions_group, List.range_eq_range']
    rfl
  conditions := by
    rw [chain, Arm.flatMap_labels_group, placedFrom, List.nil_append, List.map_filterMap,
      List.filterMap_map]
    conv_rhs => rw [← List.zipIdx_map_fst 0 cases, List.filterMap_map]
    congr 1
    funext ⟨⟨condition, body⟩, position⟩
    cases condition <;> rfl
  defaults := by
    have hdefault : ((fun entry => entry.1.isNone) ∘ fun entry => entry.1.placed entry.2) =
        fun entry : Branch Node × Nat => entry.1.isDefault := by
      funext ⟨⟨condition, body⟩, position⟩
      cases condition <;> rfl
    rw [chain, Arm.filter_isDefault_group, placedFrom, List.filter_map, List.map_map, hdefault]
    refine List.map_congr_left ?_
    rintro ⟨⟨condition, body⟩, position⟩ hentry
    obtain rfl : condition = none := by simpa [Branch.isDefault] using (List.mem_filter.mp hentry).2
    rfl
  label labels body closed h := by
    obtain ⟨hne, hlabels, -⟩ := of_mem_chain h
    exact ⟨hne, fun label hlabel => (hlabels label hlabel).1⟩
  empty labels body closed h := (of_mem_chain h).2.2
  body labels body closed h label hlabel := ((of_mem_chain h).2.1 label hlabel).2

end Branch

/-! ## The text of a chain -/

/-- The text of a link of the chain. -/
def Arm.written (context : Context) : PlacedArm → String
  | .cases labels body _ =>
    "." ++ apply "Case" (labels.map (fun label => (emit context.cases label.2).text) ++
      [thunk (context.depth + 1) (emitBody context.cases.deeper (body.elim [] Prod.snd)).text])
  | .default body =>
    "." ++ apply "Default"
      [thunk (context.depth + 1) (emitBody context.cases.deeper (body.elim [] Prod.snd)).text]

/-- The text of a switch, from the links of its chain. -/
def writtenSwitch (context : Context) (discriminant : Node) (chain : List PlacedArm) : String :=
  apply "Switch" [(emit context discriminant).text] ++ "\n" ++ tabs (context.depth + 1) ++
    String.join (chain.map (Arm.written context))

/-- An absent body and an empty one have the same text. -/
theorem text_body (context : Context) (body : Option (List Node)) :
    ((body.map (emitBody context)).map Fragment.text).getD "" =
      (emitBody context (body.getD [])).text := by
  cases body <;> rfl

/-- The text that is emitted for a group of cases or the default case. -/
def Arm.emitted (context : Context) (arm : Arm Node (List Node)) : String :=
  (Form.arm (context.depth + 1)
    (arm.map (emit context.cases) (emitBody context.cases.deeper))).text

theorem emitted_eq_written (context : Context) {arm : Arm Node (List Node)} {placed : PlacedArm}
    (hdefault : arm.isDefault = placed.isDefault)
    (hlabels : arm.labels = placed.labels.map Prod.snd)
    (hbody : arm.body?.getD [] = placed.body?.elim [] Prod.snd) :
    arm.emitted context = placed.written context := by
  cases arm with
  | cases labels body closed =>
    cases placed with
    | cases own shared _ =>
      obtain rfl : labels = own.map Prod.snd := hlabels
      have hbody : body.getD [] = shared.elim [] Prod.snd := hbody
      simp only [Arm.emitted, Form.arm, Arm.map, Arm.written, Fragment.texts, text_body, hbody,
        List.map_map]
      rfl
    | default => cases hdefault
  | default body =>
    cases placed with
    | cases => cases hdefault
    | default shared =>
      have hbody : body.getD [] = shared.elim [] Prod.snd := hbody
      simp only [Arm.emitted, Form.arm, Arm.map, Arm.written, text_body, hbody]

theorem map_emitted_group (context : Context) (pending : List (Nat × Node)) (position : Nat)
    (cases : List (Branch Node)) :
    (Arm.group (pending.map Prod.snd) (cases.map Branch.entry)).map (Arm.emitted context) =
      (Arm.group pending (Branch.placedFrom position cases)).map (Arm.written context) := by
  induction cases generalizing pending position with
  | nil =>
    cases pending with
    | nil => rfl
    | cons label labels => exact congrArg ([·]) (emitted_eq_written context rfl rfl rfl)
  | cons branch rest ih =>
    obtain ⟨condition, body⟩ := branch
    have hrest := ih [] (position + 1)
    cases condition with
    | none =>
      have hbody : (Branch.entry ⟨none, body⟩).2.getD [] = body := by cases body <;> rfl
      have hdefault : Arm.emitted context (.default (Branch.entry ⟨none, body⟩).2) =
          Arm.written context (.default (some (position, body))) :=
        emitted_eq_written context rfl rfl hbody
      cases pending with
      | nil => exact congrArg₂ List.cons hdefault hrest
      | cons label labels =>
        exact congrArg₂ List.cons (emitted_eq_written context rfl rfl hbody)
          (congrArg₂ List.cons hdefault hrest)
    | some condition =>
      cases body with
      | nil =>
        simpa [Arm.group, Branch.entry] using
          ih (pending ++ [(position, condition)]) (position + 1)
      | cons node nodes =>
        have hgroup : Arm.emitted context
            (.cases (pending.map Prod.snd ++ [condition]) (some (node :: nodes)) true) =
            Arm.written context (.cases (pending ++ [(position, condition)])
              (some (position, node :: nodes)) true) :=
          emitted_eq_written context rfl (by simp [Arm.labels]) rfl
        simpa [Arm.group, Branch.entry, hgroup] using hrest

theorem text_emit_switch (context : Context) (discriminant : Node) (cases : List (Branch Node)) :
    (emit context (.switch discriminant cases)).text =
      writtenSwitch context discriminant (Branch.chain cases) := by
  simp only [emit, Form.switch, group_emitCases, Fragment.texts, List.map_map, writtenSwitch,
    Branch.chain, ← map_emitted_group context [] 0 cases]
  rfl

end ShaderScript
