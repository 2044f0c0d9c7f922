import ShaderScript.Proofs.CommandSteps
import ShaderScript.Proofs.ByteOrder

/-!
# The search in the library

The names of the library are in strict order, so that the search by bisection finds what a search
from the first entry to the last would find. The names that start alike stand next to each other,
so that a listing is a slice of the table.
-/

namespace ShaderScript

namespace Library

/-- The bytes of every name are before those of the names behind it. -/
def Ordered (entries : List Symbol) : Prop :=
  entries.Pairwise fun first second => utf8Bytes first.name < utf8Bytes second.name

theorem ordered_symbols : Ordered symbols.toList := by
  -- Neighbours are compared, which is enough for all pairs and can be computed.
  have hnames : (symbols.toList.map Symbol.name).IsChain (· < ·) := by decide +kernel
  have hpairs := List.pairwise_map.mp (List.isChain_iff_pairwise.mp hnames)
  exact hpairs.imp utf8Bytes_lt_iff.mpr

/-! ## Bisection -/

/-- The first of the entries whose name has the bytes of the given one. -/
def scan? (entries : List Symbol) (name : String) : Option Symbol :=
  entries.find? fun symbol => utf8Bytes symbol.name = utf8Bytes name

section Bisection

variable {entries left right : List Symbol} {entry : Symbol} {name : String} {low width : Nat}

theorem scan?_eq_none (h : ∀ symbol ∈ entries, symbol.name ≠ name) : scan? entries name = none := by
  simpa [scan?, utf8Bytes_inj] using h

/-- One comparison with an entry leaves the entries on one side of it. -/
theorem scan?_append_cons (h : Ordered (left ++ entry :: right)) :
    scan? (left ++ entry :: right) name =
      if entry.name = name then some entry
      else if entry.name < name then scan? right name
      else scan? left name := by
  have hsplit : scan? (left ++ entry :: right) name =
      (scan? left name).or (if entry.name = name then some entry else scan? right name) := by
    simp only [scan?, List.find?_append, List.find?_cons, utf8Bytes_inj]
    split <;> simp_all
  obtain ⟨_, hcons, hleft⟩ := List.pairwise_append.mp h
  have hbefore : ∀ symbol ∈ left, symbol.name < entry.name := fun symbol hsymbol =>
    utf8Bytes_lt_iff.mp (hleft symbol hsymbol entry List.mem_cons_self)
  have hbehind : ∀ symbol ∈ right, entry.name < symbol.name := fun symbol hsymbol =>
    utf8Bytes_lt_iff.mp ((List.pairwise_cons.mp hcons).1 symbol hsymbol)
  rw [hsplit]
  split_ifs with hname hlt
  · rw [scan?_eq_none fun symbol hsymbol => hname ▸ (hbefore symbol hsymbol).ne, Option.none_or]
  · rw [scan?_eq_none fun symbol hsymbol => ((hbefore symbol hsymbol).trans hlt).ne,
      Option.none_or]
  · have hgt : name < entry.name := lt_of_le_of_ne (not_lt.mp hlt) (Ne.symm hname)
    rw [scan?_eq_none fun symbol hsymbol => (hgt.trans (hbehind symbol hsymbol)).ne',
      Option.or_none]

/-- Names are distinct, so that the first entry with a name is the only one. -/
theorem scan?_eq_some_iff (h : Ordered entries) :
    scan? entries name = some entry ↔
      entry ∈ entries ∧ utf8Bytes entry.name = utf8Bytes name := by
  constructor
  · intro hfound
    exact ⟨List.mem_of_find?_eq_some hfound, by simpa using List.find?_some hfound⟩
  · rintro ⟨hmem, hname⟩
    obtain ⟨left, right, rfl⟩ := List.append_of_mem hmem
    rw [scan?_append_cons h, if_pos (utf8Bytes_inj.mp hname)]

theorem take_drop_eq_append_cons {middle : Nat} (hmiddle : middle < width)
    (hentry : entries[low + middle]? = some entry) :
    (entries.drop low).take width =
      (entries.drop low).take middle ++
        entry :: (entries.drop (low + middle + 1)).take (width - middle - 1) := by
  obtain ⟨hlt, rfl⟩ := List.getElem?_eq_some_iff.mp hentry
  have hwidth : width = middle + (width - middle - 1 + 1) := by omega
  conv_lhs => rw [hwidth]
  rw [List.take_add, List.drop_drop, List.drop_eq_getElem_cons hlt, List.take_succ_cons]

/-- A step of the bisection: the entry in the middle leaves one of the halves around it. -/
theorem scan?_halves (horder : Ordered entries) (hwidth : width ≠ 0)
    (hentry : entries[low + width / 2]? = some entry) :
    scan? ((entries.drop low).take width) name =
      if entry.name = name then some entry
      else if entry.name < name then
        scan? ((entries.drop (low + width / 2 + 1)).take (width - width / 2 - 1)) name
      else scan? ((entries.drop low).take (width / 2)) name := by
  have hslice : Ordered ((entries.drop low).take width) :=
    horder.sublist ((List.take_sublist _ _).trans (List.drop_sublist _ _))
  rw [take_drop_eq_append_cons (by omega) hentry] at hslice ⊢
  exact scan?_append_cons hslice

/-- In an ordered table, bisection finds what a scan of the part that is left would find. -/
theorem bisect?_eq_scan? {table : Array Symbol} {steps : Nat} (horder : Ordered table.toList)
    (hsteps : width ≤ steps) (hwidth : low + width ≤ table.size) :
    bisect? table name steps low width = scan? ((table.toList.drop low).take width) name := by
  fun_induction bisect? table name steps low width with
  | case1 low width =>
    obtain rfl : width = 0 := by omega
    rfl
  | case2 => rfl
  | case3 steps low width hzero middle hentry =>
    -- The middle of a part lies in it, and so in the table.
    have hsize := Array.getElem?_eq_none_iff.mp hentry
    omega
  | case4 steps low width hzero middle entry hentry hname =>
    rw [scan?_halves horder hzero (by rwa [Array.getElem?_toList]), if_pos hname]
  | case5 steps low width hzero middle entry hentry hname hlt ih =>
    rw [scan?_halves horder hzero (by rwa [Array.getElem?_toList]), if_neg hname, if_pos hlt]
    exact ih (by omega) (by omega)
  | case6 steps low width hzero middle entry hentry hname hlt ih =>
    rw [scan?_halves horder hzero (by rwa [Array.getElem?_toList]), if_neg hname, if_neg hlt]
    exact ih (by omega) (by omega)

theorem lookup?_eq_scan? (name : String) : lookup? name = scan? symbols.toList name := by
  rw [lookup?, bisect?_eq_scan? ordered_symbols le_rfl (by omega), List.drop_zero,
    ← Array.length_toList, List.take_length]

end Bisection

/-! ## Listings -/

/-- What lies between two texts that start alike starts as they do. -/
theorem prefix_of_between {start first second third : List Char} (hfirst : start <+: first)
    (hthird : start <+: third) (hlow : first < second) (hhigh : second < third) :
    start <+: second := by
  induction start generalizing first second third with
  | nil => exact List.nil_prefix
  | cons c start ih =>
    obtain ⟨first, rfl, hlower⟩ := List.cons_prefix_iff.mp hfirst
    obtain ⟨third, rfl, hupper⟩ := List.cons_prefix_iff.mp hthird
    cases second with
    | nil => cases hlow
    | cons d second =>
      obtain hcd | ⟨heq, hlow⟩ := List.cons_lt_cons_iff.mp hlow
      · obtain hdc | ⟨heq, _⟩ := List.cons_lt_cons_iff.mp hhigh
        · exact absurd hcd hdc.asymm
        · exact absurd heq hcd.ne'
      · obtain hdc | ⟨_, hhigh⟩ := List.cons_lt_cons_iff.mp hhigh
        · exact absurd heq hdc.ne'
        · exact List.cons_prefix_cons.mpr ⟨heq, ih hlower hupper hlow hhigh⟩

/-- What lies between two entries that are kept is kept. -/
def KeepsBetween (keep : Symbol → Bool) : Prop :=
  ∀ first second third : Symbol, first.name < second.name → second.name < third.name →
    keep first → keep third → keep second

theorem keepsBetween_start (start : String) :
    KeepsBetween fun symbol => start.toList.isPrefixOf symbol.name.toList := by
  intro first second third hlow hhigh hfirst hthird
  rw [String.lt_iff_toList_lt] at hlow hhigh
  rw [List.isPrefixOf_iff_prefix] at hfirst hthird ⊢
  exact prefix_of_between hfirst hthird hlow hhigh

/-- If an entry and one behind it are kept, then there is none between them that is not. -/
theorem KeepsBetween.eq_nil {keep : Symbol → Bool} (h : KeepsBetween keep) {entry kept : Symbol}
    {others rest : List Symbol} (horder : Ordered (entry :: (others ++ rest))) (hentry : keep entry)
    (hmem : kept ∈ rest) (hkept : keep kept) (hothers : ∀ symbol ∈ others, keep symbol = false) :
    others = [] := by
  obtain ⟨hbehind, htail⟩ := List.pairwise_cons.mp horder
  obtain ⟨_, _, hbefore⟩ := List.pairwise_append.mp htail
  refine List.eq_nil_iff_forall_not_mem.mpr fun symbol hsymbol => ?_
  have hlow := utf8Bytes_lt_iff.mp (hbehind symbol (List.mem_append_left _ hsymbol))
  have hhigh := utf8Bytes_lt_iff.mp (hbefore symbol hsymbol kept hmem)
  have hkeep := h entry symbol kept hlow hhigh hentry hkept
  rw [hothers symbol hsymbol] at hkeep
  exact Bool.false_ne_true hkeep

/-- The entries that are kept stand next to each other. -/
theorem KeepsBetween.exists_slice {keep : Symbol → Bool} (h : KeepsBetween keep)
    {entries : List Symbol} (horder : Ordered entries) :
    ∃ before after, entries = before ++ entries.filter keep ++ after ∧
      ∀ symbol ∈ before ++ after, keep symbol = false := by
  induction entries with
  | nil => exact ⟨[], [], rfl, fun _ hsymbol => nomatch hsymbol⟩
  | cons entry entries ih =>
    obtain ⟨before, after, hentries, hothers⟩ := ih (List.pairwise_cons.mp horder).2
    cases hentry : keep entry with
    | false =>
      refine ⟨entry :: before, after, ?_, ?_⟩
      · rw [List.filter_cons_of_neg (by simp [hentry])]
        simpa using hentries
      · simpa [hentry] using hothers
    | true =>
      rw [List.filter_cons_of_pos hentry]
      by_cases hnone : entries.filter keep = []
      · refine ⟨[], entries, by simp [hnone], ?_⟩
        simpa using hnone
      · obtain ⟨kept, hkept⟩ := List.exists_mem_of_ne_nil _ hnone
        have hpairs : Ordered (entry :: (before ++ (entries.filter keep ++ after))) := by
          rwa [← List.append_assoc, ← hentries]
        obtain rfl : before = [] :=
          h.eq_nil hpairs hentry (List.mem_append_left _ hkept) (List.mem_filter.mp hkept).2
            fun symbol hsymbol => hothers symbol (List.mem_append_left _ hsymbol)
        refine ⟨[], after, ?_, hothers⟩
        simpa using hentries

/-- The listing of a start is a slice of the table. -/
theorem exists_slice_withStart (start : String) :
    ∃ before after, symbols.toList = before ++ withStart start ++ after ∧
      ∀ symbol ∈ before ++ after, ¬ utf8Bytes start <+: utf8Bytes symbol.name := by
  obtain ⟨before, after, hsymbols, hothers⟩ :=
    (keepsBetween_start start).exists_slice ordered_symbols
  refine ⟨before, after, hsymbols, fun symbol hsymbol => ?_⟩
  rw [utf8Bytes_prefix_iff, ← List.isPrefixOf_iff_prefix, hothers symbol hsymbol]
  exact Bool.false_ne_true

theorem prefix_of_mem_withStart {start : String} {symbol : Symbol} (h : symbol ∈ withStart start) :
    utf8Bytes start <+: utf8Bytes symbol.name := by
  rw [utf8Bytes_prefix_iff, ← List.isPrefixOf_iff_prefix]
  exact (List.mem_filter.mp h).2

end Library

/-- **The search in the library.** The bytes of the names are in strict order. For every name, the
bisection finds what a scan of the whole table does, which is the entry with the bytes of the name
and nothing if there is none. A listing is a slice of the table: the names in it start with the
bytes of the filter, and those on both sides of it do not. -/
theorem library_search_exact :
    Library.Ordered Library.symbols.toList ∧
    (∀ name, Library.lookup? name = Library.scan? Library.symbols.toList name) ∧
    (∀ name symbol, Library.lookup? name = some symbol ↔
      symbol ∈ Library.symbols ∧ utf8Bytes symbol.name = utf8Bytes name) ∧
    ∀ (filter : Option String) (disk : Disk), ∃ before listed after,
      Library.symbols.toList = before ++ listed ++ after ∧
        (World.start disk).run ((Command.symbols filter).run World.host) =
          (.ok (), ⟨disk, ⟨(String.join (listed.map symbolLine)).toUTF8, none⟩, []⟩) ∧
        (∀ symbol ∈ listed, utf8Bytes (filter.getD "") <+: utf8Bytes symbol.name) ∧
        ∀ symbol ∈ before ++ after, ¬ utf8Bytes (filter.getD "") <+: utf8Bytes symbol.name := by
  refine ⟨Library.ordered_symbols, Library.lookup?_eq_scan?, fun name symbol => ?_,
    fun filter disk => ?_⟩
  · rw [Library.lookup?_eq_scan?, Library.scan?_eq_some_iff Library.ordered_symbols,
      Array.mem_toList_iff]
  · obtain ⟨before, after, hsymbols, hothers⟩ := Library.exists_slice_withStart (filter.getD "")
    refine ⟨before, _, after, hsymbols, ?_, fun _ => Library.prefix_of_mem_withStart, hothers⟩
    have hrun := World.run_forM_print disk .empty [] (Library.withStart (filter.getD ""))
    rwa [ByteArray.empty_append] at hrun

end ShaderScript
