import Mathlib.Data.List.Forall2
import ShaderScript.Proofs.Emission

/-!
# Sheets

Emitted text depends on two things besides the tree: how far its lines are indented, and whether the
uniforms in it are bound to an outside store. A sheet is a text with both left open. What is decided
by looking at text, whether it starts like a literal and whether it ends in a brace, is the same for
all readings of a sheet. The forms of text take sheets to sheets.
-/

namespace ShaderScript

open Script

/-- The text has no line break. -/
def Unbroken (text : String) : Prop :=
  '\n' ∉ text.toList

instance (text : String) : Decidable (Unbroken text) :=
  inferInstanceAs (Decidable (¬ _))

theorem unbroken_append {left right : String} :
    Unbroken (left ++ right) ↔ Unbroken left ∧ Unbroken right := by
  simp [Unbroken]

/-- Line breaks. -/
def breaks (count : Nat) : String :=
  String.ofList (List.replicate count '\n')

/-- The value in the declaration of a uniform. -/
def initializer (reference : Bool) (name type : String) : String :=
  (Form.uniformValue reference name type).text

inductive Piece where
  /-- Text that is always the same. -/
  | text (content : String)
  /-- The declaration of a uniform, whose value is left open. -/
  | uniform (name type : String)
  /-- A new line one level below the given depth, after some empty lines. -/
  | line (blanks depth : Nat)
  /-- A new line at the given depth with a closing brace, after some empty lines. -/
  | close (blanks depth : Nat)

abbrev Sheet := List Piece

namespace Piece

/-- The text of a piece, with these values for uniforms, and every line indented by the margin on
top of its depth. -/
def render (value : String → String → String) (margin : Nat) : Piece → String
  | .text content => content
  | .uniform name type => "const " ++ name ++ " = " ++ value name type
  | .line blanks depth => breaks (blanks + 1) ++ tabs (margin + depth + 1)
  | .close blanks depth => breaks (blanks + 1) ++ tabs (margin + depth) ++ "\x7d"

/-- The strings that a piece is made with. -/
def strings : Piece → List String
  | .text content => [content]
  | .uniform name type => [name, type]
  | .line .. | .close .. => []

/-- The name and the type of a uniform. -/
def uniform? : Piece → Option (String × String)
  | .uniform name type => some (name, type)
  | _ => none

end Piece

namespace Sheet

variable (value : String → String → String) (margin : Nat)

def render (sheet : Sheet) : String :=
  String.join (sheet.map (Piece.render value margin))

/-- The uniforms that a sheet declares, in the order of the text. -/
def uniforms (sheet : Sheet) : List (String × String) :=
  sheet.filterMap Piece.uniform?

@[simp]
theorem render_nil : render value margin [] = "" :=
  rfl

@[simp]
theorem render_cons (piece : Piece) (sheet : Sheet) :
    render value margin (piece :: sheet) =
      piece.render value margin ++ render value margin sheet := by
  simp [render]

@[simp]
theorem render_append (left right : Sheet) :
    render value margin (left ++ right) =
      render value margin left ++ render value margin right := by
  simp [render]

/-- Only the values of the uniforms in a sheet count. -/
theorem render_congr {value other : String → String → String} {margin : Nat} {sheet : Sheet}
    (h : ∀ name type, (name, type) ∈ sheet.uniforms → value name type = other name type) :
    sheet.render value margin = sheet.render other margin := by
  induction sheet with
  | nil => rfl
  | cons piece sheet ih =>
    have hrest := ih fun name type hmem => h name type <| by
      obtain ⟨piece', hp, hu⟩ := List.mem_filterMap.mp hmem
      exact List.mem_filterMap.mpr ⟨piece', List.mem_cons_of_mem _ hp, hu⟩
    rw [render_cons, render_cons, hrest]
    cases piece with
    | uniform name type =>
      have hvalue := h name type (List.mem_filterMap.mpr ⟨_, List.mem_cons_self, rfl⟩)
      simp only [Piece.render, hvalue]
    | _ => rfl

end Sheet

/-! ## What is decided by looking at text -/

/-- The characters agree up to the given number of them, or up to a line break before that. -/
inductive Alike : Nat → List Char → List Char → Prop
  | zero (left right : List Char) : Alike 0 left right
  | nil (count : Nat) : Alike count [] []
  | newline (count : Nat) (left right : List Char) : Alike count ('\n' :: left) ('\n' :: right)
  | cons {count : Nat} {left right : List Char} (c : Char) (h : Alike count left right) :
    Alike (count + 1) (c :: left) (c :: right)

namespace Alike

variable {count : Nat} {left right : List Char}

theorem common {start : List Char} (h : count ≤ start.length) (left right : List Char) :
    Alike count (start ++ left) (start ++ right) := by
  induction start generalizing count with
  | nil =>
    obtain rfl := Nat.le_zero.mp h
    exact .zero _ _
  | cons c start ih =>
    cases count with
    | zero => exact .zero _ _
    | succ count => exact .cons c (ih (Nat.le_of_succ_le_succ h))

theorem append_left (start : List Char) (h : ∀ fewer ≤ count, Alike fewer left right) :
    Alike count (start ++ left) (start ++ right) := by
  induction start generalizing count with
  | nil => exact h count (Nat.le_refl _)
  | cons c start ih =>
    cases count with
    | zero => exact .zero _ _
    | succ count => exact .cons c (ih fun fewer hf => h fewer (Nat.le_succ_of_le hf))

theorem isPrefixOf_eq {word : List Char} (hword : '\n' ∉ word) (hlength : word.length ≤ count)
    (h : Alike count left right) : word.isPrefixOf left = word.isPrefixOf right := by
  induction word generalizing count left right with
  | nil => rfl
  | cons c word ih =>
    obtain ⟨hc, hrest⟩ := not_or.mp (List.mem_cons.not.mp hword)
    cases h with
    | zero => cases hlength
    | nil => rfl
    | newline =>
      have hne : (c == '\n') = false := beq_eq_false_iff_ne.mpr (Ne.symm hc)
      simp [List.isPrefixOf, hne]
    | cons d h => rw [List.isPrefixOf, List.isPrefixOf, ih hrest (Nat.le_of_succ_le_succ hlength) h]

theorem startsNumeral_eq (h : Alike (count + 2) left right) :
    startsNumeral left = startsNumeral right := by
  cases h with
  | nil | newline => rfl
  | cons c h =>
    by_cases hpoint : c = '.'
    · subst hpoint
      cases h <;> rfl
    · simp [startsNumeral, hpoint]

/-- No literal has a line break among its first characters, and five of them decide. -/
theorem startsLiteral_eq {left right : String} (h : Alike 5 left.toList right.toList) :
    startsLiteral left = startsLiteral right := by
  have htrue : "true".toList.isPrefixOf left.toList = "true".toList.isPrefixOf right.toList :=
    h.isPrefixOf_eq (by decide) (by decide)
  have hfalse : "false".toList.isPrefixOf left.toList = "false".toList.isPrefixOf right.toList :=
    h.isPrefixOf_eq (by decide) (by decide)
  simp only [startsLiteral, htrue, hfalse]
  congr 1
  generalize left.toList = left at h
  generalize right.toList = right at h
  cases h with
  | nil | newline => rfl
  | cons c hrest =>
    by_cases hminus : c = '-'
    · subst hminus
      exact hrest.startsNumeral_eq
    · simpa [hminus] using (Alike.cons c hrest).startsNumeral_eq

end Alike

namespace Sheet

variable {value other : String → String → String} {margin further : Nat}

theorem alike_render (sheet : Sheet) {count : Nat} (h : count ≤ 5) :
    Alike count (render value margin sheet).toList (render other further sheet).toList := by
  induction sheet generalizing count with
  | nil => exact .nil _
  | cons piece sheet ih =>
    rw [render_cons, render_cons, String.toList_append, String.toList_append]
    cases piece with
    | text content => exact .append_left _ fun fewer hf => ih (Nat.le_trans hf h)
    | uniform name type =>
      simp only [Piece.render, String.toList_append, List.append_assoc]
      exact .common (Nat.le_trans h (by decide)) _ _
    | line blanks depth | close blanks depth =>
      simp only [Piece.render, breaks, List.replicate_succ, String.toList_append,
        String.toList_ofList, List.cons_append]
      exact .newline _ _ _

/-- Neither the values of uniforms nor the margin decide whether a text starts like a literal. -/
theorem startsLiteral_render (sheet : Sheet) :
    startsLiteral (render value margin sheet) = startsLiteral (render other further sheet) :=
  (alike_render sheet (Nat.le_refl 5)).startsLiteral_eq

end Sheet

/-- Whether the last character is a closing brace, if there is one. -/
def lastBrace? (text : String) : Option Bool :=
  text.toList.getLast?.map (· == '\x7d')

theorem terminator_eq {left right : String} (h : lastBrace? left = lastBrace? right) :
    Body.terminator left = Body.terminator right := by
  have hiff : left.toList.getLast? = some '\x7d' ↔ right.toList.getLast? = some '\x7d' := by
    have hbrace (text : String) :
        text.toList.getLast? = some '\x7d' ↔ lastBrace? text = some true := by
      simp [lastBrace?]
    rw [hbrace, hbrace, h]
  simp only [Body.terminator, hiff]

theorem lastBrace?_append (left right : String) :
    lastBrace? (left ++ right) = (lastBrace? right).or (lastBrace? left) := by
  simp only [lastBrace?, String.toList_append, List.getLast?_append]
  cases right.toList.getLast? <;> rfl

/-- Every value of a uniform is a call. -/
theorem lastBrace?_initializer (reference : Bool) (name type : String) :
    lastBrace? (initializer reference name type) = some false := by
  have hcall (callee first : String) (rest : List String) :
      lastBrace? (apply callee (first :: rest)) = some false := by
    rw [apply, lastBrace?_append]
    · rfl
    · nofun
  unfold initializer Form.uniformValue
  split
  · exact hcall ..
  · split <;> exact hcall ..

/-- What a sheet is read with. -/
structure View where
  /-- Uniforms are bound to an outside store. -/
  reference : Bool
  /-- How much every line is indented on top of its depth. -/
  margin : Nat

namespace Sheet

/-- The text of a sheet in a document. -/
def read (view : View) (sheet : Sheet) : String :=
  sheet.render (initializer view.reference) view.margin

theorem lastBrace?_read (sheet : Sheet) (view other : View) :
    lastBrace? (sheet.read view) = lastBrace? (sheet.read other) := by
  induction sheet with
  | nil => rfl
  | cons piece sheet ih =>
    simp only [read, render_cons, lastBrace?_append] at ih ⊢
    rw [ih]
    congr 1
    cases piece with
    | text content => rfl
    | uniform name type => simp [Piece.render, lastBrace?_append, lastBrace?_initializer]
    | line blanks depth =>
      have hline (margin : Nat) : lastBrace? (tabs (margin + depth + 1)) = some false := by
        simp [lastBrace?, tabs, List.getLast?_replicate]
      simp [Piece.render, lastBrace?_append, hline]
    | close blanks depth =>
      have hbrace : lastBrace? "\x7d" = some true := rfl
      simp [Piece.render, lastBrace?_append, hbrace]

end Sheet

/-! ## Laid-out text -/

/-- The text is a sheet for every view. The sheet has these uniforms, in this order, and nothing
but text without line breaks and strings of the given kind. -/
def Laid (P : String → Prop) (uniforms : List (String × String)) (text : View → String) : Prop :=
  ∃ sheet : Sheet, (∀ string ∈ sheet.flatMap Piece.strings, Unbroken string ∨ P string) ∧
    sheet.uniforms = uniforms ∧ ∀ view, text view = sheet.read view

/-- The content of a block is laid out: there is none, or it starts a line. -/
inductive Filled (P : String → Prop) : List (String × String) → (View → String) → Prop
  | empty {content : View → String} (h : ∀ view, content view = "") : Filled P [] content
  | lines {uniforms : List (String × String)} {content : View → String}
    (h : Laid P uniforms fun view => "\n\n" ++ content view) : Filled P uniforms content

namespace Laid

variable {P : String → Prop} {uniforms others : List (String × String)}
  {text other content : View → String} {parts : List (List (String × String))}
  {texts : List (View → String)}

/-- Whether laid-out text starts like a literal does not depend on the view. -/
theorem exists_startsLiteral (h : Laid P uniforms text) :
    ∃ starts, ∀ view, startsLiteral (text view) = starts := by
  obtain ⟨sheet, -, -, hread⟩ := h
  refine ⟨startsLiteral (sheet.read ⟨false, 0⟩), fun view => ?_⟩
  rw [hread]
  exact sheet.startsLiteral_render

/-- Nor does what a statement of laid-out text ends in. -/
theorem exists_terminator (h : Laid P uniforms text) :
    ∃ finish, Unbroken finish ∧ ∀ view, Body.terminator (text view) = finish := by
  obtain ⟨sheet, -, -, hread⟩ := h
  refine ⟨Body.terminator (sheet.read ⟨false, 0⟩), ?_, fun view => ?_⟩
  · unfold Body.terminator
    split <;> decide
  · rw [hread]
    exact terminator_eq (sheet.lastBrace?_read view _)

theorem own {string : String} (h : Unbroken string ∨ P string) : Laid P [] fun _ => string :=
  ⟨[.text string], by simpa [Piece.strings] using h, rfl, by simp [Sheet.read, Piece.render]⟩

theorem fixed {string : String} (h : Unbroken string) : Laid P [] fun _ => string :=
  own (.inl h)

theorem uniform {name type : String} (hname : P name) (htype : P type) :
    Laid P [(name, type)] fun view => (Form.uniform view.reference name type).text := by
  refine ⟨[.uniform name type], ?_, rfl, ?_⟩
  · simp [Piece.strings, hname, htype]
  · intro view
    simp [Sheet.read, Piece.render, Form.uniform, initializer]

theorem line (blanks depth : Nat) :
    Laid P [] fun view => breaks (blanks + 1) ++ tabs (view.margin + depth + 1) :=
  ⟨[.line blanks depth], by simp [Piece.strings], rfl, by simp [Sheet.read, Piece.render]⟩

theorem close (blanks depth : Nat) :
    Laid P [] fun view => breaks (blanks + 1) ++ tabs (view.margin + depth) ++ "\x7d" :=
  ⟨[.close blanks depth], by simp [Piece.strings], rfl, by simp [Sheet.read, Piece.render]⟩

theorem append (h : Laid P uniforms text) (hother : Laid P others other) :
    Laid P (uniforms ++ others) fun view => text view ++ other view := by
  obtain ⟨left, hleft, rfl, hreadLeft⟩ := h
  obtain ⟨right, hright, rfl, hreadRight⟩ := hother
  refine ⟨left ++ right, ?_, List.filterMap_append, ?_⟩
  · rw [List.flatMap_append, List.forall_mem_append]
    exact ⟨hleft, hright⟩
  · intro view
    simp only [hreadLeft, hreadRight, Sheet.read, Sheet.render_append]

theorem before {start : String} (hstart : Unbroken start) (h : Laid P uniforms text) :
    Laid P uniforms fun view => start ++ text view :=
  (fixed hstart).append h

theorem after {finish : String} (hfinish : Unbroken finish) (h : Laid P uniforms text) :
    Laid P uniforms fun view => text view ++ finish := by
  simpa using h.append (fixed hfinish)

/-! ### Forms of text -/

theorem orUnknown {string : String} (h : P string) :
    Laid P [] fun _ => Script.orUnknown string := by
  unfold Script.orUnknown
  split
  · exact fixed (by decide)
  · exact own (.inr h)

theorem intercalate {separator : String} (hseparator : Laid P [] fun _ => separator)
    (h : List.Forall₂ (Laid P) parts texts) :
    Laid P parts.flatten fun view => separator.intercalate (texts.map (· view)) := by
  induction h with
  | nil => exact fixed (by decide)
  | @cons first text rest texts hfirst hrest ih =>
    cases hrest with
    | nil => simpa using hfirst
    | cons =>
      simp only [List.map_cons, String.intercalate_cons_cons]
      simpa using (hfirst.append hseparator).append ih

theorem joined (h : List.Forall₂ (Laid P) parts texts) :
    Laid P parts.flatten fun view => String.join (texts.map (· view)) := by
  induction h with
  | nil => exact fixed (by decide)
  | cons hfirst hrest ih => simpa using hfirst.append ih

theorem apply {callee : String} (hcallee : Laid P [] fun _ => callee)
    (h : List.Forall₂ (Laid P) parts texts) :
    Laid P parts.flatten fun view => Script.apply callee (texts.map (· view)) := by
  have hjoin : Laid P parts.flatten fun view => join (texts.map (· view)) :=
    intercalate (fixed (by decide)) h
  cases h with
  | nil => exact hcallee.after (by decide)
  | cons => exact ((hcallee.after (by decide)).append hjoin).after (by decide)

theorem method (name : String) (hname : Unbroken name) (hobject : Laid P uniforms text)
    (h : List.Forall₂ (Laid P) parts texts) :
    Laid P (uniforms ++ parts.flatten) fun view =>
      Script.method (text view) name (texts.map (· view)) :=
  (hobject.after (by decide)).append (apply (fixed hname) h)

theorem literal (h : Laid P uniforms text) :
    Laid P uniforms fun view => Script.literal (text view) :=
  (h.before (by decide)).after (by decide)

theorem braced (h : List.Forall₂ (Laid P) parts texts) :
    Laid P parts.flatten fun view => Script.braced (texts.map (· view)) :=
  ((intercalate (fixed (by decide)) h).before (by decide)).after (by decide)

theorem bracketed (h : List.Forall₂ (Laid P) parts texts) :
    Laid P parts.flatten fun view => Script.bracketed (texts.map (· view)) :=
  ((intercalate (fixed (by decide)) h).before (by decide)).after (by decide)

theorem entry {key : String} (hkey : Laid P [] fun _ => key) (h : Laid P uniforms text) :
    Laid P uniforms fun view => Script.entry key (text view) :=
  (hkey.after (by decide)).append h

theorem block (depth : Nat) (h : Filled P uniforms content) :
    Laid P uniforms fun view => Script.block (view.margin + depth) (content view) := by
  have hbrace : Unbroken "\x7b" := by decide
  have hopen : "\x7b\n\n" = "\x7b" ++ "\n\n" := rfl
  have hbreaks : "\n\n" = breaks 2 := rfl
  cases h with
  | empty h =>
    have hfour : breaks 4 = breaks 2 ++ breaks 2 := rfl
    have hblock := (close (P := P) 3 depth).before hbrace
    simpa only [Script.block, h, hopen, hbreaks, hfour, String.append_assoc, String.append_empty,
      String.empty_append] using hblock
  | lines h =>
    have hblock := (h.append (close 1 depth)).before hbrace
    simpa only [Script.block, hopen, hbreaks, String.append_assoc, List.append_nil] using hblock

theorem callback {params : String} (hparams : Laid P [] fun _ => params) (depth : Nat)
    (h : Filled P uniforms content) :
    Laid P uniforms fun view => Script.callback params (view.margin + depth) (content view) :=
  (hparams.after (by decide)).append (block depth h)

theorem thunk (depth : Nat) (h : Filled P uniforms content) :
    Laid P uniforms fun view => Script.thunk (view.margin + depth) (content view) :=
  callback (fixed (by decide)) depth h

end Laid

end ShaderScript
