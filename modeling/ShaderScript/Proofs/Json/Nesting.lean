import ShaderScript.Proofs.Json.Values

/-!
# How deep a text is nested

The brackets that are open at a place of a JSON text are counted by one scan, which takes no notice
of what stands in strings. In a text of a value, the most brackets that are open at the same time
are as many as the value is high.
-/

namespace ShaderScript.Json

/-! ## The scan -/

/-- Where a scan stands. -/
inductive Place where
  | outside
  | inString
  /-- After a backslash. -/
  | escaped

/-- A scan of a text up to some place: how many brackets are open there, and the most that were open
so far. -/
structure Scan where
  place : Place
  level : Nat
  deepest : Nat

namespace Scan

def start : Scan :=
  ⟨.outside, 0, 0⟩

def step : Scan → Char → Scan
  | ⟨.outside, level, deepest⟩, c =>
    if c = '"' then ⟨.inString, level, deepest⟩
    else if c = '[' ∨ c = '\x7b' then ⟨.outside, level + 1, max deepest (level + 1)⟩
    else if c = ']' ∨ c = '\x7d' then ⟨.outside, level - 1, deepest⟩
    else ⟨.outside, level, deepest⟩
  | ⟨.inString, level, deepest⟩, c =>
    if c = '"' then ⟨.outside, level, deepest⟩
    else if c = '\\' then ⟨.escaped, level, deepest⟩
    else ⟨.inString, level, deepest⟩
  | ⟨.escaped, level, deepest⟩, _ => ⟨.inString, level, deepest⟩

end Scan

/-- The most brackets that are open at the same time in a JSON text. -/
def bracketDepth (text : String) : Nat :=
  (text.toList.foldl Scan.step Scan.start).deepest

section Scanning

variable {level deepest : Nat}

/-! ## What stands between the brackets -/

/-- The scan takes no notice of the text. -/
theorem scan_other {text : List Char}
    (h : ∀ c ∈ text, c ∉ ['"', '[', '\x7b', ']', '\x7d']) :
    text.foldl Scan.step ⟨.outside, level, deepest⟩ = ⟨.outside, level, deepest⟩ := by
  induction text with
  | nil => rfl
  | cons c text ih =>
    obtain ⟨hc, htext⟩ := List.forall_mem_cons.mp h
    have hstep : Scan.step ⟨.outside, level, deepest⟩ c = ⟨.outside, level, deepest⟩ := by
      simp only [List.mem_cons, List.not_mem_nil, or_false, not_or] at hc
      simp [Scan.step, hc]
    rw [List.foldl_cons, hstep, ih htext]

theorem scan_gap (gap : Gap) :
    gap.chars.foldl Scan.step ⟨.outside, level, deepest⟩ = ⟨.outside, level, deepest⟩ := by
  refine scan_other fun c hc hspecial => ?_
  have hblank : ∀ c ∈ ['"', '[', '\x7b', ']', '\x7d'], isBlank c = false := by simp [isBlank]
  exact absurd (gap.blank c hc) (by simp [hblank c hspecial])

theorem scan_numeral {text : List Char} (h : Numeral text) :
    text.foldl Scan.step ⟨.outside, level, deepest⟩ = ⟨.outside, level, deepest⟩ := by
  refine scan_other fun c hc hspecial => ?_
  have hother : ∀ c ∈ ['"', '[', '\x7b', ']', '\x7d'],
      c.isDigit = false ∧ c ∉ ['+', '-', '.', 'e', 'E'] := by simp
  obtain ⟨hdigit, hsign⟩ := hother c hspecial
  rcases h.chars c hc with h | h
  · rw [hdigit] at h
    cases h
  · exact hsign h

theorem WritesUnit.not_special {digits : List Char} {unit : Nat} (h : WritesUnit digits unit) :
    ∀ c ∈ digits, c ≠ '"' ∧ c ≠ '\\' := by
  have hdigit {c : Char} {digit : Nat} (h : hexDigit? c = some digit) : c ≠ '"' ∧ c ≠ '\\' := by
    constructor <;>
    · rintro rfl
      cases h
  obtain ⟨hlength, hunit⟩ := h
  match digits, hlength with
  | [a, b, c, d], _ =>
    simp only [hexUnit?, Option.bind_eq_bind, Option.bind_eq_some_iff] at hunit
    obtain ⟨_, ha, _, hb, _, hc, _, hd, _⟩ := hunit
    simp only [List.forall_mem_cons]
    exact ⟨hdigit ha, hdigit hb, hdigit hc, hdigit hd, by simp⟩

/-- Characters of a string that are no quote and no backslash. -/
theorem scan_plain {text : List Char} (h : ∀ c ∈ text, c ≠ '"' ∧ c ≠ '\\') :
    text.foldl Scan.step ⟨.inString, level, deepest⟩ = ⟨.inString, level, deepest⟩ := by
  induction text with
  | nil => rfl
  | cons c text ih =>
    obtain ⟨⟨hquote, hslash⟩, htext⟩ := List.forall_mem_cons.mp h
    have hstep : Scan.step ⟨.inString, level, deepest⟩ c = ⟨.inString, level, deepest⟩ := by
      simp [Scan.step, hquote, hslash]
    rw [List.foldl_cons, hstep, ih htext]

theorem scan_stringText {text : List Char} (h : StringText text) :
    text.foldl Scan.step ⟨.inString, level, deepest⟩ = ⟨.inString, level, deepest⟩ := by
  induction h with
  | nil => rfl
  | plain hquote hslash _ _ ih => simpa [Scan.step, hquote, hslash] using ih
  | letter _ _ ih => exact ih
  | @unit digits unit text hunit _ ih =>
    have hescape : ['\\', 'u'].foldl Scan.step ⟨.inString, level, deepest⟩ =
        ⟨.inString, level, deepest⟩ := rfl
    have htext : '\\' :: 'u' :: (digits ++ text) = ['\\', 'u'] ++ (digits ++ text) := rfl
    rw [htext, List.foldl_append, hescape, List.foldl_append, scan_plain hunit.not_special, ih]

theorem scan_quoted {text : List Char} (h : StringText text) (rest : List Char) :
    ('"' :: (text ++ '"' :: rest)).foldl Scan.step ⟨.outside, level, deepest⟩ =
      rest.foldl Scan.step ⟨.outside, level, deepest⟩ := by
  have hopen : Scan.step ⟨.outside, level, deepest⟩ '"' = ⟨.inString, level, deepest⟩ := rfl
  rw [List.foldl_cons, hopen, List.foldl_append, scan_stringText h]
  rfl

/-! ## Bracketed text -/

variable {β : Type} {close : Char} {write : β → List Char} {height : Padded β → Nat}
  {final : Gap}

/-- The text takes the scan from one level to another, after going `height` brackets deeper. -/
def Climbs (level next height : Nat) (text : List Char) : Prop :=
  ∀ deepest, level ≤ deepest → text.foldl Scan.step ⟨.outside, level, deepest⟩ =
    ⟨.outside, next, max deepest (level + height)⟩

theorem climbs_zero {text : List Char}
    (h : ∀ deepest, text.foldl Scan.step ⟨.outside, level, deepest⟩ = ⟨.outside, level, deepest⟩) :
    Climbs level level 0 text := by
  intro deepest hle
  rw [h deepest, Nat.add_zero, Nat.max_eq_left hle]

theorem climbs_onto {padded : Padded β} {rest : List Char} {next more : Nat}
    (h : Climbs level level (height padded) (write padded.entry))
    (hrest : Climbs level next more rest) :
    Climbs level next (max (height padded) more) (padded.onto write rest) := by
  intro deepest hle
  rw [Padded.onto, List.foldl_append, scan_gap, List.foldl_append, h deepest hle,
    List.foldl_append, scan_gap, hrest _ (by omega)]
  simp only [Scan.mk.injEq, true_and]
  omega

theorem climbs_close (hclose : close = ']' ∨ close = '\x7d') :
    Climbs (level + 1) level 0 (final.chars ++ [close]) := by
  intro deepest hle
  rw [List.foldl_append, scan_gap, Nat.add_zero, Nat.max_eq_left hle]
  rcases hclose with rfl | rfl <;> rfl

theorem climbs_moreText (hclose : close = ']' ∨ close = '\x7d') {entries : List (Padded β)}
    (h : ∀ padded ∈ entries,
      Climbs (level + 1) (level + 1) (height padded) (write padded.entry)) :
    Climbs (level + 1) level (Value.tallest height entries)
      (moreText close write final entries) := by
  induction entries with
  | nil => exact climbs_close hclose
  | cons padded entries ih =>
    obtain ⟨hentry, hentries⟩ := List.forall_mem_cons.mp h
    have hmore := climbs_onto hentry (ih hentries)
    -- The comma in front changes nothing.
    intro deepest hle
    exact hmore deepest hle

/-- A bracketed text climbs one bracket higher than its highest entry. -/
theorem climbs_bracketed {opening : Char} {entries : List (Padded β)}
    (hopen : opening = '[' ∧ close = ']' ∨ opening = '\x7b' ∧ close = '\x7d')
    (h : ∀ padded ∈ entries,
      Climbs (level + 1) (level + 1) (height padded) (write padded.entry)) :
    Climbs level level (Value.tallest height entries + 1)
      (opening :: bracketedText close write final entries) := by
  have hclose : close = ']' ∨ close = '\x7d' := hopen.imp And.right And.right
  have hentries : Climbs (level + 1) level (Value.tallest height entries)
      (bracketedText close write final entries) := by
    cases entries with
    | nil => exact climbs_close hclose
    | cons padded entries =>
      obtain ⟨hentry, hentries⟩ := List.forall_mem_cons.mp h
      exact climbs_onto hentry (climbs_moreText hclose hentries)
  intro deepest hle
  have hfirst : Scan.step ⟨.outside, level, deepest⟩ opening =
      ⟨.outside, level + 1, max deepest (level + 1)⟩ := by
    rcases hopen with ⟨rfl, -⟩ | ⟨rfl, -⟩ <;> rfl
  rw [List.foldl_cons, hfirst, hentries _ (by omega)]
  simp only [Scan.mk.injEq, true_and]
  omega

theorem climbs_member {text : MemberText} {height : Nat} (hkey : StringText text.key)
    (h : Climbs level level height text.value) : Climbs level level height text.chars := by
  intro deepest hle
  have hcolon : Scan.step ⟨.outside, level, deepest⟩ ':' = ⟨.outside, level, deepest⟩ := rfl
  rw [MemberText.chars, scan_quoted hkey, MemberText.tail, List.foldl_append, scan_gap,
    List.foldl_cons, hcolon, List.foldl_append, scan_gap, h deepest hle]

end Scanning

/-! ## Values -/

/-- The most brackets that are open at the same time in a part of a JSON text. -/
def nesting (text : List Char) : Nat :=
  (text.foldl Scan.step Scan.start).deepest

theorem nesting_of_climbs {text : List Char} {height : Nat} (h : Climbs 0 0 height text) :
    nesting text = height := by
  rw [nesting, Scan.start, h 0 (Nat.le_refl 0)]
  simp

/-- A text that climbs equally high from every level climbs as high as it is nested. -/
theorem climbs_nesting {text : List Char} {height : Nat}
    (h : ∀ level, Climbs level level height text) (level : Nat) :
    Climbs level level (nesting text) text := by
  rw [nesting_of_climbs (h 0)]
  exact h level

theorem climbs_quoted {text : List Char} (h : StringText text) (level : Nat) :
    Climbs level level 0 ('"' :: (text ++ ['"'])) :=
  climbs_zero fun _ => scan_quoted h []

theorem JsonText.climbs {text : List Char} (h : JsonText text) (level : Nat) :
    Climbs level level (nesting text) text := by
  induction h generalizing level with
  | word h =>
    refine climbs_nesting (fun level => climbs_zero fun deepest => scan_other ?_) level
    simp only [List.mem_cons, List.not_mem_nil, or_false] at h
    rcases h with rfl | rfl | rfl <;> simp
  | str h => exact climbs_nesting (climbs_quoted h) level
  | num h => exact climbs_nesting (fun level => climbs_zero fun _ => scan_numeral h) level
  | @arr β write entries final h ih =>
    have hentries (level : Nat) : ∀ padded ∈ entries, Climbs (level + 1) (level + 1)
        (nesting (write padded.entry)) (write padded.entry) := fun padded hp => ih padded hp _
    exact climbs_nesting (fun level => climbs_bracketed (.inl ⟨rfl, rfl⟩) (hentries level)) level
  | @obj β layout entries final hkeys h ih =>
    have hentries (level : Nat) : ∀ padded ∈ entries, Climbs (level + 1) (level + 1)
        (nesting (layout padded.entry).value) (layout padded.entry).chars :=
      fun padded hp => climbs_member (hkeys padded hp) (ih padded hp _)
    exact climbs_nesting (fun level => climbs_bracketed (.inr ⟨rfl, rfl⟩) (hentries level)) level

/-- A list is nested one bracket deeper than its deepest item. -/
theorem nesting_arr {β : Type} {write : β → List Char} {entries : List (Padded β)} {final : Gap}
    (h : ∀ padded ∈ entries, JsonText (write padded.entry)) :
    nesting ('[' :: bracketedText ']' write final entries) =
      Value.tallest (fun padded => nesting (write padded.entry)) entries + 1 := by
  have hentries : ∀ padded ∈ entries, Climbs 1 1 (nesting (write padded.entry))
      (write padded.entry) := fun padded hp => (h padded hp).climbs 1
  exact nesting_of_climbs (climbs_bracketed (.inl ⟨rfl, rfl⟩) hentries)

/-- An object is nested one bracket deeper than the deepest value in it. -/
theorem nesting_obj {β : Type} {layout : β → MemberText} {entries : List (Padded β)} {final : Gap}
    (hkeys : ∀ padded ∈ entries, StringText (layout padded.entry).key)
    (h : ∀ padded ∈ entries, JsonText (layout padded.entry).value) :
    nesting ('\x7b' :: bracketedText '\x7d' (fun entry => (layout entry).chars) final entries) =
      Value.tallest (fun padded => nesting (layout padded.entry).value) entries + 1 := by
  have hentries : ∀ padded ∈ entries, Climbs 1 1 (nesting (layout padded.entry).value)
      (layout padded.entry).chars :=
    fun padded hp => climbs_member (hkeys padded hp) ((h padded hp).climbs 1)
  exact nesting_of_climbs (climbs_bracketed (.inr ⟨rfl, rfl⟩) hentries)

/-- A text of a value is nested as deep as the value is high. -/
theorem nesting_spelled {value : Value} {text : List Char} (h : Spells value text) :
    nesting text = value.height := by
  induction h with
  | null | true | false => simp [nesting, Scan.step, Scan.start, Value.height]
  | str h =>
    rw [Value.height]
    exact nesting_of_climbs (climbs_quoted h.stringText 0)
  | num h =>
    rw [Value.height]
    exact nesting_of_climbs (climbs_zero fun _ => scan_numeral h.numeral)
  | arr h ih =>
    rw [nesting_arr fun padded hp => (h padded hp).jsonText, Value.height_arr, Value.tallest_map,
      Value.tallest_congr ih]
  | obj hkeys h ih =>
    rw [nesting_obj (fun padded hp => (hkeys padded hp).stringText)
      (fun padded hp => (h padded hp).jsonText), Value.height_obj, Value.tallest_map,
      Value.tallest_congr ih]

/-- Blanks around a text change nothing. -/
theorem nesting_padded {text : List Char} (h : JsonText text) (lead trail : Gap) :
    nesting (lead.chars ++ (text ++ trail.chars)) = nesting text := by
  have hclimbs := h.climbs 0 0 (Nat.le_refl 0)
  rw [nesting, Scan.start, List.foldl_append, scan_gap, List.foldl_append, hclimbs, scan_gap]
  simp

-- The bracket in the string is not counted.
example : bracketDepth "[\"[\", [[], []]]" = 3 := by decide

end ShaderScript.Json
