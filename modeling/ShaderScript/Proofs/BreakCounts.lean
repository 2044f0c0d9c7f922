import Mathlib.Logic.Basic
import Mathlib.Tactic.SplitIfs
import ShaderScript.Proofs.Emission

/-!
# Counting breaks

Where breaks are replaced by calls, the text either stays the same or mentions `Break` more often.
`Grows` is that alternative, and it passes from the parts of a text to the text if every form
mentions `Break` as often as its parts do, up to a number of its own.
-/

namespace ShaderScript

/-! ## Growth -/

/-- The sizes of all values together. -/
def total {α : Type} (size : α → Nat) : List α → Nat
  | [] => 0
  | value :: values => size value + total size values

section Totals

variable {α β : Type} {size : α → Nat}

@[simp]
theorem total_nil : total size [] = 0 :=
  rfl

@[simp]
theorem total_cons (value : α) (values : List α) :
    total size (value :: values) = size value + total size values :=
  rfl

theorem total_append (front back : List α) :
    total size (front ++ back) = total size front + total size back := by
  induction front with
  | nil => simp
  | cons value front ih => simp [ih, Nat.add_assoc]

theorem total_map {other : β → Nat} {f : α → β} (h : ∀ value, other (f value) = size value)
    (values : List α) : total other (values.map f) = total size values := by
  induction values with
  | nil => rfl
  | cons value values ih => simp [h, ih]

end Totals

/-- The new value is the old one if `p` holds, and larger if not. -/
structure Grows {α : Type} (size : α → Nat) (old new : α) (p : Prop) : Prop where
  eq : p → new = old
  lt : ¬ p → size old < size new

namespace Grows

variable {α β : Type} {size : α → Nat} {old new : α} {p q : Prop}

theorem refl (size : α → Nat) (value : α) : Grows size value value True :=
  ⟨fun _ => rfl, fun h => absurd trivial h⟩

theorem le (h : Grows size old new p) : size old ≤ size new := by
  by_cases hp : p
  · exact Nat.le_of_eq (by rw [h.eq hp])
  · exact Nat.le_of_lt (h.lt hp)

theorem eq_iff (h : Grows size old new p) : new = old ↔ p := by
  refine ⟨fun heq => Classical.byContradiction fun hp => ?_, h.eq⟩
  have hlt := h.lt hp
  rw [heq] at hlt
  exact Nat.lt_irrefl _ hlt

theorem congr (h : Grows size old new p) (hpq : p ↔ q) : Grows size old new q :=
  ⟨fun hq => h.eq (hpq.mpr hq), fun hq => h.lt (mt hpq.mp hq)⟩

/-- Something that is built from the value, and adds as much to its size each time. -/
theorem map {other : β → Nat} (h : Grows size old new p) (f : α → β) (own : Nat)
    (hf : ∀ value, other (f value) = size value + own) : Grows other (f old) (f new) p where
  eq hp := by rw [h.eq hp]
  lt hp := by
    have hlt := h.lt hp
    rw [hf, hf]
    omega

theorem pair {other : β → Nat} {left right : β} (h : Grows size old new p)
    (ho : Grows other left right q) :
    Grows (fun values => size values.1 + other values.2) (old, left) (new, right) (p ∧ q) where
  eq hpq := by rw [h.eq hpq.1, ho.eq hpq.2]
  lt hpq := by
    have hle := h.le
    have hleo := ho.le
    show size old + other left < size new + other right
    rcases not_and_or.mp hpq with hp | hq
    · have hlt := h.lt hp
      omega
    · have hlt := ho.lt hq
      omega

theorem cons {olds news : List α} (h : Grows size old new p)
    (hrest : Grows (total size) olds news q) :
    Grows (total size) (old :: olds) (new :: news) (p ∧ q) :=
  (h.pair hrest).map (fun values => values.1 :: values.2) 0 (by simp)

theorem append (front : List α) {olds news : List α} (h : Grows (total size) olds news p) :
    Grows (total size) (front ++ olds) (front ++ news) p :=
  h.map (fun values => front ++ values) (total size front) fun values => by
    rw [total_append, Nat.add_comm]

theorem list {f g : β → α} {each : β → Prop} {items : List β}
    (h : ∀ item ∈ items, Grows size (f item) (g item) (each item)) :
    Grows (total size) (items.map f) (items.map g) (∀ item ∈ items, each item) := by
  induction items with
  | nil => exact (refl _ _).congr (by simp)
  | cons item items ih =>
    obtain ⟨hitem, hitems⟩ := List.forall_mem_cons.mp h
    exact (hitem.cons (ih hitems)).congr List.forall_mem_cons.symm

theorem option {f g : β → α} {each : β → Prop} {item : Option β}
    (h : ∀ value ∈ item, Grows size (f value) (g value) (each value)) :
    Grows (fun value => value.elim 0 size) (item.map f) (item.map g)
      (∀ value ∈ item, each value) := by
  cases item with
  | none => exact (refl _ none).congr (by simp)
  | some value =>
    have hsome : Grows (fun value => value.elim 0 size) (some (f value)) (some (g value))
        (each value) :=
      (h value rfl).map some 0 (by simp)
    exact hsome.congr (by simp)

end Grows

/-! ## Counting mentions -/

namespace Fragment

/-- How often `Break` is mentioned. -/
def breakCount (fragment : Fragment) : Nat :=
  fragment.notes.count (.mention "Break")

theorem count_allNotes (fragments : List Fragment) :
    (allNotes fragments).count (.mention "Break") = total breakCount fragments := by
  induction fragments with
  | nil => rfl
  | cons fragment fragments ih =>
    rw [total_cons, ← ih, allNotes, List.flatMap_cons, List.count_append, breakCount]
    rfl

theorem count_optional (fragment : Option Fragment) :
    ((fragment.map notes).getD []).count (.mention "Break") = fragment.elim 0 breakCount := by
  cases fragment <;> rfl

end Fragment

namespace Form

open Fragment

theorem breakCount_binary (op : BinaryOp) (left right : Fragment) :
    (binary op left right).breakCount = left.breakCount + right.breakCount := by
  have hmethod : op.method ≠ "Break" := by cases op <;> decide
  unfold binary
  split_ifs <;> simp [breakCount, hmethod]

theorem breakCount_unary (op : UnaryOp) (trailing initializing : Bool) (operand : Fragment) :
    (unary op trailing initializing operand).breakCount = operand.breakCount := by
  have hmethod : unaryMethod? op trailing initializing ≠ some "Break" := by
    cases op <;> cases trailing <;> cases initializing <;> decide
  unfold unary
  split
  · rfl
  · rename_i name hname
    have hne : name ≠ "Break" := by
      rintro rfl
      exact hmethod hname
    split_ifs <;> simp [breakCount, hne]

theorem breakCount_ternary (condition left right : Fragment) :
    (ternary condition left right).breakCount =
      condition.breakCount + left.breakCount + right.breakCount := by
  simp [ternary, breakCount, Nat.add_assoc]

/-- A sampling call has another name, so that a call of `Break` always mentions it. -/
theorem breakCount_call (name : String) (args : List Fragment) :
    (call name args).breakCount =
      total breakCount args + if name = "Break" then 1 else 0 := by
  unfold call
  split
  · rename_i chain hchain
    have hne : name ≠ "Break" := by
      rintro rfl
      cases hchain
    simp [breakCount, count_allNotes, hne]
  · simp [breakCount, count_allNotes, List.count_singleton]

theorem breakCount_link (element : Element Fragment) :
    (link element).breakCount = element.value.breakCount := by
  cases element with
  | member value => rfl
  | index value =>
    rw [link]
    split_ifs <;> rfl

theorem breakCount_chain (object : Fragment) (links : List Fragment) :
    (chain object links).breakCount = object.breakCount + total breakCount links := by
  simp [chain, breakCount, count_allNotes]

theorem breakCount_returned (value : Option Fragment) :
    (returned value).breakCount = value.elim 0 breakCount := by
  cases value <;> rfl

theorem breakCount_binding (name type : String) (value : Option Fragment)
    (isConverted mutable : Bool) :
    (binding name type value isConverted mutable).breakCount = value.elim 0 breakCount := by
  cases value with
  | none => rfl
  | some value => cases isConverted <;> rfl

theorem breakCount_bindings (parts : List Fragment) (types : List String) :
    (bindings parts types).breakCount =
      total breakCount parts +
        (types.reverse.map Note.mention).count (.mention "Break") := by
  simp only [bindings, breakCount, List.count_append, count_allNotes]

/-- How often `Break` is mentioned in an `else` link. -/
def linkCount (link : Option Fragment × Fragment) : Nat :=
  link.1.elim 0 breakCount + link.2.breakCount

theorem breakCount_alternate (depth : Nat) (link : Option Fragment × Fragment) :
    (alternate depth link).breakCount = linkCount link := by
  obtain ⟨condition | condition, body⟩ := link
  · simp [alternate, linkCount, breakCount]
  · simp [alternate, linkCount, breakCount, Nat.add_comm]

theorem breakCount_conditional (depth : Nat) (condition body : Fragment)
    (alternates : List (Option Fragment × Fragment)) :
    (conditional depth condition body alternates).breakCount =
      condition.breakCount + body.breakCount + total linkCount alternates := by
  have hlinks : total breakCount (alternates.map (alternate depth)) = total linkCount alternates :=
    total_map (breakCount_alternate depth) alternates
  simp [conditional, breakCount, count_allNotes, hlinks, Nat.add_assoc]

/-- How often `Break` is mentioned in an arm. -/
def armCount (arm : Arm Fragment Fragment) : Nat :=
  total breakCount arm.labels + arm.body?.elim 0 breakCount

theorem breakCount_arm (depth : Nat) (arm : Arm Fragment Fragment) :
    (Form.arm depth arm).breakCount = armCount arm := by
  cases arm with
  | cases labels body closed =>
    cases closed <;>
      simp [Form.arm, armCount, breakCount, count_allNotes, count_optional, Arm.labels, Arm.body?]
  | default body => simp [Form.arm, armCount, breakCount, count_optional, Arm.labels, Arm.body?]

/-- A switch over the given arms. -/
def switchOver (depth : Nat) (discriminant : Fragment) (arms : List (Arm Fragment Fragment)) :
    Fragment :=
  ⟨Script.apply "Switch" [discriminant.text] ++ "\n" ++ Script.tabs (depth + 1) ++
      String.join (texts (arms.map (arm (depth + 1)))),
    discriminant.notes ++ allNotes (arms.map (arm (depth + 1))) ++ [.require "Switch"]⟩

theorem breakCount_switchOver (depth : Nat) (discriminant : Fragment)
    (arms : List (Arm Fragment Fragment)) :
    (switchOver depth discriminant arms).breakCount =
      discriminant.breakCount + total armCount arms := by
  have harms : total breakCount (arms.map (arm (depth + 1))) = total armCount arms :=
    total_map (breakCount_arm (depth + 1)) arms
  simp [switchOver, breakCount, count_allNotes, harms]

theorem breakCount_countingLoop (depth : Nat) (counting : Counting Fragment) (body : Fragment) :
    (countingLoop depth counting body).breakCount =
      counting.start.breakCount + counting.limit.breakCount +
        counting.update.operand?.elim 0 breakCount + body.breakCount := by
  simp [countingLoop, breakCount, count_optional, Nat.add_assoc]

theorem breakCount_generalLoop (depth : Nat) (initial condition afterthought : Option Fragment)
    (body : Fragment) :
    (generalLoop depth initial condition afterthought body).breakCount =
      initial.elim 0 breakCount + condition.elim 0 breakCount + afterthought.elim 0 breakCount +
        body.breakCount := by
  simp [generalLoop, breakCount, count_optional, Nat.add_assoc]

end Form

end ShaderScript
