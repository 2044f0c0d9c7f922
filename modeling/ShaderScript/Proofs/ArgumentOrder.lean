import Mathlib.Data.List.Nodup
import Mathlib.Data.List.Perm.Basic
import Mathlib.Data.List.TakeWhile
import ShaderScript.Command.Arguments

/-!
# The order of arguments

What is asked for can be given in many ways: the file and the settings in any order, and each value
in the same argument as its name or in the next one. A value in the next argument is looked at only
when something else has been read, so a setting may be complete and still wait. Up to that, reading
the arguments of one setting adds the setting and its value to what was read before, and nothing
else. So only the settings count that were given, not how; and a setting that is given twice is
found wherever it stands.
-/

namespace ShaderScript

namespace Arguments

/-! ## Ways to give a setting -/

/-- A text that stands for itself as an argument: it is not empty and does not start like a
setting. -/
structure Word where
  text : String
  nonempty : text.toList ≠ []
  undashed : text.toList.head? ≠ some '-'

/-- A word that can also be put directly behind the name of a setting. -/
structure SettingValue extends Word where
  unassigned : text.toList.head? ≠ some '='

/-- How a value follows the name of its setting. -/
inductive Joint where
  /-- In the next argument, as in `--output X` and `-o X`. -/
  | apart
  /-- After an equals sign, as in `--output=X` and `-o=X`. -/
  | equals
deriving DecidableEq

/-- The spellings of the output. -/
inductive OutputForm where
  | long (joint : Joint)
  | short (joint : Joint)
  /-- The value directly follows the letter, as in `-oX`. -/
  | attached
deriving DecidableEq

/-- The file or one setting, in one of its spellings. -/
inductive Group where
  | file (name : Word)
  | iife
  | reference
  | revision (value : SettingValue) (joint : Joint)
  | output (value : SettingValue) (form : OutputForm)

namespace Group

/-- A name and a value. -/
def joined (name value : String) : Joint → List String
  | .apart => [name, value]
  | .equals => [name ++ "=" ++ value]

/-- The arguments that a group is made of. -/
def arguments : Group → List String
  | .file name => [name.text]
  | .iife => ["--iife"]
  | .reference => ["--reference"]
  | .revision value joint => joined "--revision" value.text joint
  | .output value (.long joint) => joined "--output" value.text joint
  | .output value (.short joint) => joined "-o" value.text joint
  | .output value .attached => ["-o" ++ value.text]

/-- What a group sets, whatever its spelling. -/
def entry : Group → Setting × String
  | .file name => (.file, name.text)
  | .iife => (.iife, "")
  | .reference => (.reference, "")
  | .revision value _ => (.revision, value.text)
  | .output value _ => (.output, value.text)

end Group

/-- What can be asked of the generator. -/
structure Request where
  file : Word
  iife : Bool
  reference : Bool
  revision : Option SettingValue
  output : Option SettingValue

namespace Request

/-- The settings that have to be given for a request, besides the file. -/
def settings (request : Request) : List (Setting × String) :=
  (if request.iife then [(.iife, "")] else []) ++
    (if request.reference then [(.reference, "")] else []) ++
    (request.revision.toList.map fun value => (.revision, value.text)) ++
    request.output.toList.map fun value => (.output, value.text)

/-- All that has to be given for a request. -/
def entries (request : Request) : List (Setting × String) :=
  (.file, request.file.text) :: request.settings

/-- The command that does what is asked for. -/
def command (request : Request) : Command :=
  .emit request.file.text
    ⟨request.iife, request.reference,
      (request.revision.map fun value => value.text).getD Options.currentRevision⟩
    (request.output.map fun value => value.text)

end Request

/-! ## Reading one argument -/

section Reading

variable {grammar : Grammar} {state : State}

theorem Word.exists_cons (word : Word) : ∃ c rest, word.text.toList = c :: rest ∧ c ≠ '-' := by
  obtain ⟨text, nonempty, undashed⟩ := word
  cases htext : text.toList with
  | nil => exact absurd htext nonempty
  | cons c rest =>
    refine ⟨c, rest, rfl, ?_⟩
    rintro rfl
    exact undashed (by rw [htext]; rfl)

theorem Word.isEmpty_text (word : Word) : word.text.isEmpty = false := by
  have hne : word.text ≠ "" := fun heq => word.nonempty (by rw [heq]; rfl)
  simpa using hne

/-- A word is the value that is waited for. -/
theorem readArgument_value {setting : Setting} (hopen : state.filesOnly = false)
    (hpending : state.pending = some (setting, none)) (word : Word) :
    readArgument grammar state word.text =
      .ok { state with pending := some (setting, some word.text) } := by
  obtain ⟨c, rest, htext, hdash⟩ := word.exists_cons
  rw [readArgument, hopen, htext]
  simp [hdash, hpending]

/-- Where no value is waited for, a word is a file. -/
theorem readArgument_file (hopen : state.filesOnly = false)
    (hpending : ∀ setting, state.pending ≠ some (setting, none)) (word : Word) :
    readArgument grammar state word.text = readFile grammar state word.text := by
  obtain ⟨c, rest, htext, hdash⟩ := word.exists_cons
  rw [readArgument, hopen, htext]
  simp [hdash]

theorem readArgument_long (hopen : state.filesOnly = false) {argument : String} {c : Char}
    {text : List Char} (htext : argument.toList = '-' :: '-' :: c :: text) :
    readArgument grammar state argument = readLong grammar state (c :: text) := by
  rw [readArgument, hopen, htext]
  rfl

theorem readArgument_short (hopen : state.filesOnly = false) {argument : String} {letter : Char}
    {text : List Char} (htext : argument.toList = '-' :: letter :: text) (hletter : letter ≠ '-') :
    readArgument grammar state argument = readShort grammar state letter text := by
  rw [readArgument, hopen, htext]
  simp [hletter]

theorem forall_bne {c : Char} {text : List Char} (h : c ∉ text) :
    ∀ other ∈ text, (other != c) = true := by
  intro other hother
  rw [bne_iff_ne]
  rintro rfl
  exact h hother

theorem splitValue_name {name : List Char} (h : '=' ∉ name) :
    splitValue name = (String.ofList name, none) := by
  rw [splitValue, List.takeWhile_eq_self_iff.mpr (forall_bne h),
    List.dropWhile_eq_nil_iff.mpr (forall_bne h)]

theorem splitValue_equals {name : List Char} (h : '=' ∉ name) (value : List Char) :
    splitValue (name ++ '=' :: value) = (String.ofList name, some (String.ofList value)) := by
  rw [splitValue, List.takeWhile_append_of_pos (forall_bne h),
    List.dropWhile_append_of_pos (forall_bne h)]
  simp

/-- A setting is known by this long name. -/
structure LongName (grammar : Grammar) (name : String) (setting : Setting) : Prop where
  nonempty : name.toList ≠ []
  plain : '=' ∉ name.toList
  not_help : name ≠ "help"
  known : grammar.long.lookup name = some setting

theorem readArgument_longName (hopen : state.filesOnly = false) {name : String} {setting : Setting}
    (h : LongName grammar name setting) {argument : String}
    (htext : argument.toList = '-' :: '-' :: name.toList) :
    readArgument grammar state argument = state.take setting none := by
  obtain ⟨c, rest, hname⟩ := List.exists_cons_of_ne_nil h.nonempty
  have hread : readLong grammar state name.toList = state.take setting none := by
    simp [readLong, splitValue_name h.plain, h.not_help, h.known]
  rw [hname] at htext hread
  rw [readArgument_long hopen htext, hread]

theorem readArgument_longValue (hopen : state.filesOnly = false) {name : String}
    {setting : Setting} (h : LongName grammar name setting) {argument value : String}
    (htext : argument.toList = '-' :: '-' :: (name.toList ++ '=' :: value.toList)) :
    readArgument grammar state argument = state.take setting (some value) := by
  obtain ⟨c, rest, hname⟩ := List.exists_cons_of_ne_nil h.nonempty
  have hread : readLong grammar state (name.toList ++ '=' :: value.toList) =
      state.take setting (some value) := by
    simp [readLong, splitValue_equals h.plain, h.not_help, h.known]
  rw [hname, List.cons_append] at htext hread
  rw [readArgument_long hopen htext, hread]

theorem readArgument_output (hopen : state.filesOnly = false) {argument : String}
    (text : List Char) (htext : argument.toList = '-' :: 'o' :: text) :
    readArgument .emit state argument = state.take .output (attachedValue text) := by
  rw [readArgument_short hopen htext (by decide)]
  rfl

theorem attachedValue_equals (value : String) :
    attachedValue ('=' :: value.toList) = some value := by
  rw [attachedValue, String.ofList_toList]

theorem SettingValue.attachedValue_text (value : SettingValue) :
    attachedValue value.text.toList = some value.text := by
  unfold attachedValue
  split
  · rename_i hnil
    exact absurd hnil value.nonempty
  · rename_i rest hequals
    exact absurd (by rw [hequals]; rfl) value.unassigned
  · rw [String.ofList_toList]

end Reading

/-! ## What has been read -/

/-- The settings of these entries. -/
def settingsOf (entries : List (Setting × String)) : List Setting :=
  entries.map Prod.fst

/-- The names of files among the entries are not empty. -/
def Named (entries : List (Setting × String)) : Prop :=
  ∀ entry ∈ entries, entry.1.isPath → entry.2.isEmpty = false

namespace State

/-- These entries have been taken. -/
def settled (entries : List (Setting × String)) : State :=
  ⟨entries, none, decide (.file ∈ settingsOf entries), false⟩

/-- After these entries another one has been read, which is still to be taken. -/
def waiting (taken : List (Setting × String)) (entry : Setting × String) : State :=
  ⟨taken, some (entry.1, some entry.2), decide (.file ∈ settingsOf (taken ++ [entry])), false⟩

end State

/-- What has been read comes to these entries, of which the last one may be waiting. -/
inductive Reads : List (Setting × String) → State → Prop
  | settled {entries : List (Setting × String)} (hdistinct : (settingsOf entries).Nodup) :
    Reads entries (.settled entries)
  | waiting {taken : List (Setting × String)} (entry : Setting × String)
    (hdistinct : (settingsOf taken).Nodup) : Reads (taken ++ [entry]) (.waiting taken entry)

theorem settingsOf_append (front back : List (Setting × String)) :
    settingsOf (front ++ back) = settingsOf front ++ settingsOf back :=
  List.map_append

theorem settingsOf_concat (entries : List (Setting × String)) (entry : Setting × String) :
    settingsOf (entries ++ [entry]) = settingsOf entries ++ [entry.1] :=
  settingsOf_append entries [entry]

theorem nodup_concat_iff {entries : List (Setting × String)} {entry : Setting × String} :
    (settingsOf (entries ++ [entry])).Nodup ↔
      (settingsOf entries).Nodup ∧ entry.1 ∉ settingsOf entries := by
  rw [settingsOf_concat, ← List.concat_eq_append, List.nodup_concat, and_comm]

theorem State.isSome_value? (state : State) (setting : Setting) :
    (state.value? setting).isSome = decide (setting ∈ settingsOf state.given) := by
  rw [State.value?, Option.isSome_map, Bool.eq_iff_iff, List.find?_isSome, decide_eq_true_iff]
  simp [settingsOf]

theorem State.accept_eq (state : State) {entry : Setting × String}
    (hnamed : entry.1.isPath → entry.2.isEmpty = false) :
    state.accept entry.1 entry.2 =
      if entry.1 ∈ settingsOf state.given then .error .repeatedSetting
      else .ok { state with given := state.given ++ [entry] } := by
  have hpath : (entry.1.isPath && entry.2.isEmpty) = false := by
    cases hp : entry.1.isPath with
    | false => rfl
    | true => exact hnamed hp
  simp [accept, State.isSome_value?, hpath]

section Steps

variable {entries : List (Setting × String)} {state : State}

theorem Named.concat {entry : Setting × String} (h : Named (entries ++ [entry])) :
    Named entries ∧ (entry.1.isPath → entry.2.isEmpty = false) :=
  ⟨fun other hother => h other (List.mem_append_left _ hother), h entry (by simp)⟩

theorem Reads.settle_eq (h : Reads entries state) (hnamed : Named entries) :
    state.settle =
      if (settingsOf entries).Nodup then .ok (.settled entries) else .error .repeatedSetting := by
  cases h with
  | settled hdistinct =>
    rw [if_pos hdistinct]
    rfl
  | @waiting taken entry hdistinct =>
    have haccept := State.accept_eq { State.waiting taken entry with pending := none }
      hnamed.concat.2
    by_cases hmem : entry.1 ∈ settingsOf taken
    · rw [if_neg fun hnodup => (nodup_concat_iff.mp hnodup).2 hmem]
      exact haccept.trans (if_pos hmem)
    · rw [if_pos (nodup_concat_iff.mpr ⟨hdistinct, hmem⟩)]
      exact haccept.trans (if_neg hmem)

/-- The result of reading one more entry: it is added, unless a setting has been given twice. -/
def Adds (entries : List (Setting × String)) (entry : Setting × String)
    (result : Except UsageError State) : Prop :=
  (∃ next, result = .ok next ∧ Reads (entries ++ [entry]) next) ∨
    result = .error .repeatedSetting ∧ ¬ (settingsOf (entries ++ [entry])).Nodup

/-- Everything that is taken at once: what waits comes first. -/
theorem Reads.adds_accept (h : Reads entries state) {entry : Setting × String}
    (hnamed : Named (entries ++ [entry])) (hfile : entry.1 ≠ .file) :
    Adds entries entry (state.settle >>= fun next => next.accept entry.1 entry.2) := by
  rw [h.settle_eq hnamed.concat.1]
  by_cases hdistinct : (settingsOf entries).Nodup
  · rw [if_pos hdistinct]
    change Adds entries entry ((State.settled entries).accept entry.1 entry.2)
    rw [State.accept_eq _ hnamed.concat.2]
    by_cases hmem : entry.1 ∈ settingsOf entries
    · exact .inr ⟨if_pos hmem, fun hnodup => (nodup_concat_iff.mp hnodup).2 hmem⟩
    · refine .inl ⟨.settled (entries ++ [entry]), ?_, .settled ?_⟩
      · rw [if_neg (show entry.1 ∉ settingsOf (State.settled entries).given from hmem)]
        simp [State.settled, settingsOf_concat, hfile.symm]
      · exact nodup_concat_iff.mpr ⟨hdistinct, hmem⟩
  · rw [if_neg hdistinct]
    exact .inr ⟨rfl, fun hnodup => hdistinct (nodup_concat_iff.mp hnodup).1⟩

/-- What is put off until the next argument. -/
theorem Reads.adds_waiting (h : Reads entries state) {entry : Setting × String}
    (hnamed : Named entries) :
    Adds entries entry (state.settle >>= fun _ => .ok (.waiting entries entry)) := by
  rw [h.settle_eq hnamed]
  by_cases hdistinct : (settingsOf entries).Nodup
  · rw [if_pos hdistinct]
    exact .inl ⟨_, rfl, .waiting entry hdistinct⟩
  · rw [if_neg hdistinct]
    exact .inr ⟨rfl, fun hnodup => hdistinct (nodup_concat_iff.mp hnodup).1⟩

theorem Reads.open (h : Reads entries state) : state.filesOnly = false := by
  cases h <;> rfl

theorem Reads.not_expecting (h : Reads entries state) (setting : Setting) :
    state.pending ≠ some (setting, none) := by
  cases h <;> simp [State.settled, State.waiting]

theorem Reads.fileSeen_eq (h : Reads entries state) :
    state.fileSeen = decide (.file ∈ settingsOf entries) := by
  cases h <;> rfl

/-- Where it is settled what has been read, it is known what that gives. -/
theorem Reads.settle_bind (h : Reads entries state) (hnamed : Named entries)
    (next : State → Except UsageError State) :
    state.settle >>= next = state.settle >>= fun _ => next (.settled entries) := by
  rw [h.settle_eq hnamed]
  split <;> rfl

theorem Reads.adds_file (h : Reads entries state) (name : Word) (hnamed : Named entries)
    (hnew : .file ∉ settingsOf entries) :
    Adds entries (.file, name.text) (readArgument .emit state name.text) := by
  have hfile : readFile .emit state name.text =
      state.settle >>= fun _ => .ok (.waiting entries (.file, name.text)) := by
    have hseen : state.fileSeen = false := by rw [h.fileSeen_eq, decide_eq_false hnew]
    rw [readFile, hseen]
    refine (h.settle_bind hnamed _).trans ?_
    simp [State.waiting, State.settled, settingsOf_concat]
  rw [readArgument_file h.open h.not_expecting, hfile]
  exact h.adds_waiting hnamed

theorem Reads.adds_flag (h : Reads entries state) {setting : Setting}
    (hnamed : Named (entries ++ [(setting, "")])) (hflag : setting.isFlag)
    (hfile : setting ≠ .file) : Adds entries (setting, "") (state.take setting none) := by
  have htake : state.take setting none = state.settle >>= fun next => next.accept setting "" := by
    simp [State.take, hflag]
  rw [htake]
  exact h.adds_accept hnamed hfile

/-- A value in the same argument as its name. -/
theorem Reads.adds_attached (h : Reads entries state) {setting : Setting} {value : String}
    (hnamed : Named (entries ++ [(setting, value)])) (hflag : setting.isFlag = false)
    (hfile : setting ≠ .file) :
    Adds entries (setting, value) (state.take setting (some value)) := by
  have htake : state.take setting (some value) =
      state.settle >>= fun next => next.accept setting value := by
    simp [State.take, hflag]
  rw [htake]
  exact h.adds_accept hnamed hfile

/-- A name, and its value in the next argument. -/
theorem Reads.adds_apart (h : Reads entries state) {setting : Setting} (value : Word)
    (hnamed : Named entries) (hflag : setting.isFlag = false) (hfile : setting ≠ .file) :
    Adds entries (setting, value.text)
      (state.take setting none >>= fun next => readArgument .emit next value.text) := by
  have htake : state.take setting none =
      state.settle >>= fun next => .ok { next with pending := some (setting, none) } := by
    simp [State.take, hflag]
  have hvalue : readArgument .emit { State.settled entries with pending := some (setting, none) }
      value.text = .ok (.waiting entries (setting, value.text)) := by
    rw [readArgument_value rfl rfl]
    simp [State.waiting, State.settled, settingsOf_concat, hfile.symm]
  have hboth : (state.take setting none >>= fun next => readArgument .emit next value.text) =
      state.settle >>= fun _ => .ok (.waiting entries (setting, value.text)) := by
    rw [htake, bind_assoc, h.settle_bind hnamed, ← hvalue]
    rfl
  rw [hboth]
  exact h.adds_waiting hnamed

/-- The two ways to join a name and its value. -/
theorem Reads.adds_joined (h : Reads entries state) {setting : Setting} (value : Word)
    {name : String} (hnamed : Named (entries ++ [(setting, value.text)]))
    (hflag : setting.isFlag = false) (hfile : setting ≠ .file)
    (hname : readArgument .emit state name = state.take setting none)
    (hequals : readArgument .emit state (name ++ "=" ++ value.text) =
      state.take setting (some value.text)) (joint : Joint) :
    Adds entries (setting, value.text)
      ((Group.joined name value.text joint).foldlM (readArgument .emit) state) := by
  cases joint with
  | apart =>
    have happart := h.adds_apart value hnamed.concat.1 hflag hfile
    rw [← hname] at happart
    simpa [Group.joined] using happart
  | equals =>
    have hattached := h.adds_attached hnamed hflag hfile
    rw [← hequals] at hattached
    simpa [Group.joined] using hattached

theorem longName_revision : LongName .emit "revision" .revision :=
  ⟨by decide, by decide, by decide, by decide⟩

theorem longName_output : LongName .emit "output" .output :=
  ⟨by decide, by decide, by decide, by decide⟩

/-- The arguments of a group add what the group sets. -/
theorem Reads.adds_group (h : Reads entries state) (group : Group)
    (hnamed : Named (entries ++ [group.entry]))
    (hfile : group.entry.1 = .file → .file ∉ settingsOf entries) :
    Adds entries group.entry (group.arguments.foldlM (readArgument .emit) state) := by
  have hsingle (argument : String) :
      [argument].foldlM (readArgument .emit) state = readArgument .emit state argument := by simp
  cases group with
  | file name =>
    rw [Group.arguments, hsingle]
    exact h.adds_file name hnamed.concat.1 (hfile rfl)
  | iife =>
    have hname : LongName .emit "iife" .iife := ⟨by decide, by decide, by decide, by decide⟩
    rw [Group.arguments, hsingle, readArgument_longName h.open hname (by decide)]
    exact h.adds_flag hnamed rfl (by decide)
  | reference =>
    have hname : LongName .emit "reference" .reference :=
      ⟨by decide, by decide, by decide, by decide⟩
    rw [Group.arguments, hsingle, readArgument_longName h.open hname (by decide)]
    exact h.adds_flag hnamed rfl (by decide)
  | revision value joint =>
    refine h.adds_joined value.toWord hnamed rfl (by decide) ?_ ?_ joint
    · exact readArgument_longName h.open longName_revision (by decide)
    · exact readArgument_longValue h.open longName_revision (by simp)
  | output value form =>
    cases form with
    | long joint =>
      refine h.adds_joined value.toWord hnamed rfl (by decide) ?_ ?_ joint
      · exact readArgument_longName h.open longName_output (by decide)
      · exact readArgument_longValue h.open longName_output (by simp)
    | short joint =>
      refine h.adds_joined value.toWord hnamed rfl (by decide) ?_ ?_ joint
      · exact readArgument_output h.open [] (by decide)
      · rw [readArgument_output h.open ('=' :: value.text.toList) (by simp), attachedValue_equals]
    | attached =>
      rw [Group.arguments, hsingle, readArgument_output h.open value.text.toList (by simp),
        value.attachedValue_text]
      exact h.adds_attached hnamed rfl (by decide)

end Steps

/-! ## Reading all arguments -/

theorem readAll_append (grammar : Grammar) (state : State) (front back : List String) :
    readAll grammar state (front ++ back) =
      front.foldlM (readArgument grammar) state >>= fun next => readAll grammar next back := by
  induction front generalizing state with
  | nil => rfl
  | cons argument front ih =>
    rw [List.cons_append, readAll, List.foldlM_cons, bind_assoc]
    exact congrArg _ (funext ih)

theorem Group.named (groups : List Group) : Named (groups.map Group.entry) := by
  intro entry hentry hpath
  obtain ⟨group, -, rfl⟩ := List.mem_map.mp hentry
  cases group with
  | file name => exact name.isEmpty_text
  | output value form => exact value.isEmpty_text
  | iife | reference | revision => cases hpath

/-- All groups are read, unless a setting is given twice. A second file would be reported as such,
so there must be none. -/
theorem Reads.readAll_eq {state : State} {before : List Group} (groups : List Group)
    (h : Reads (before.map Group.entry) state)
    (hfile : (settingsOf ((before ++ groups).map Group.entry)).count .file ≤ 1) :
    readAll .emit state (groups.flatMap Group.arguments) =
      if (settingsOf ((before ++ groups).map Group.entry)).Nodup then
        .ok (.settled ((before ++ groups).map Group.entry))
      else .error .repeatedSetting := by
  induction groups generalizing before state with
  | nil =>
    rw [List.append_nil]
    exact h.settle_eq (Group.named before)
  | cons group groups ih =>
    have hsplit : before ++ group :: groups = (before ++ [group]) ++ groups := by simp
    have hmap : (before ++ [group]).map Group.entry = before.map Group.entry ++ [group.entry] := by
      simp
    rw [hsplit, List.map_append] at hfile ⊢
    rw [List.flatMap_cons, readAll_append]
    have hnew : group.entry.1 = .file → .file ∉ settingsOf (before.map Group.entry) := by
      intro heq
      rw [settingsOf_append, hmap, settingsOf_concat, heq, List.count_append, List.count_append,
        List.count_singleton_self] at hfile
      exact List.count_eq_zero.mp (by omega)
    have hadds := h.adds_group group (hmap ▸ Group.named (before ++ [group])) hnew
    obtain ⟨next, hnext, hreads⟩ | ⟨herror, hrepeated⟩ := hadds
    · rw [← hmap] at hreads
      rw [hnext, ← List.map_append]
      exact ih hreads (by rwa [List.map_append])
    · rw [← hmap] at hrepeated
      rw [herror, if_neg]
      · rfl
      · intro hnodup
        rw [settingsOf_append] at hnodup
        exact hrepeated hnodup.of_append_left

theorem readAll_groups (groups : List Group)
    (hfile : (settingsOf (groups.map Group.entry)).count .file ≤ 1) :
    readAll .emit .start (groups.flatMap Group.arguments) =
      if (settingsOf (groups.map Group.entry)).Nodup then .ok (.settled (groups.map Group.entry))
      else .error .repeatedSetting := by
  have hstart : Reads (([] : List Group).map Group.entry) .start := .settled List.nodup_nil
  exact hstart.readAll_eq groups hfile

/-! ## Requests -/

section Values

variable {entries others : List (Setting × String)}

theorem value?_settled_eq_some_iff (h : (settingsOf entries).Nodup) {setting : Setting}
    {value : String} :
    (State.settled entries).value? setting = some value ↔ (setting, value) ∈ entries := by
  rw [State.value?, Option.map_eq_some_iff]
  constructor
  · rintro ⟨entry, hfound, rfl⟩
    have hsetting : entry.1 = setting := by simpa using List.find?_some hfound
    rw [← hsetting]
    exact List.mem_of_find?_eq_some hfound
  · intro hmem
    obtain ⟨entry, hfound⟩ : ∃ entry, entries.find? (fun entry => entry.1 == setting) =
        some entry := by
      rw [← Option.isSome_iff_exists, List.find?_isSome]
      exact ⟨_, hmem, beq_self_eq_true setting⟩
    have hsetting : entry.1 = setting := by simpa using List.find?_some hfound
    have hsame : entry = (setting, value) :=
      List.inj_on_of_nodup_map h (List.mem_of_find?_eq_some hfound) hmem hsetting
    exact ⟨entry, hfound, by rw [hsame]⟩

/-- The order in which entries were taken does not show in their values. -/
theorem value?_settled_of_perm (h : (settingsOf entries).Nodup) (hperm : entries.Perm others)
    (setting : Setting) :
    (State.settled entries).value? setting = (State.settled others).value? setting := by
  have hothers : (settingsOf others).Nodup := (hperm.map Prod.fst).nodup_iff.mp h
  ext value
  rw [value?_settled_eq_some_iff h, value?_settled_eq_some_iff hothers, hperm.mem_iff]

end Values

namespace Request

variable (request : Request)

theorem nodup_settingsOf_entries : (settingsOf request.entries).Nodup := by
  obtain ⟨file, iife, reference, revision, output⟩ := request
  cases iife <;> cases reference <;> cases revision <;> cases output <;>
    simp [settingsOf, entries, settings]

theorem file_notMem_settings : .file ∉ settingsOf request.settings :=
  (List.nodup_cons.mp request.nodup_settingsOf_entries).1

/-- What is read from the settings of a request. -/
theorem values :
    let state := State.settled request.entries
    state.value? .file = some request.file.text ∧
      (state.value? .iife).isSome = request.iife ∧
      (state.value? .reference).isSome = request.reference ∧
      state.value? .revision = (request.revision.map fun value => value.text) ∧
      state.value? .output = (request.output.map fun value => value.text) := by
  obtain ⟨file, iife, reference, revision, output⟩ := request
  cases iife <;> cases reference <;> cases revision <;> cases output <;>
    simp [State.value?, State.settled, entries, settings]

end Request

section Requests

variable {request : Request} {groups : List Group}

theorem parse_of_readAll {arguments : List String} {state : State}
    (h : readAll .emit .start arguments = .ok state) :
    parse ("emit" :: arguments) =
      match state.value? .file with
      | none => .error .missingFile
      | some file =>
        .ok (.emit file
          ⟨(state.value? .iife).isSome, (state.value? .reference).isSome,
            (state.value? .revision).getD Options.currentRevision⟩ (state.value? .output)) := by
  rw [parse, parseEmit, h]
  rfl

theorem parse_of_perm_entries (h : (groups.map Group.entry).Perm request.entries) :
    parse ("emit" :: groups.flatMap Group.arguments) = .ok request.command := by
  have hnodup : (settingsOf (groups.map Group.entry)).Nodup :=
    (h.map Prod.fst).nodup_iff.mpr request.nodup_settingsOf_entries
  have hread := readAll_groups groups (List.nodup_iff_count_le_one.mp hnodup .file)
  rw [if_pos hnodup] at hread
  obtain ⟨hfile, hiife, hreference, hrevision, houtput⟩ := request.values
  rw [parse_of_readAll hread]
  simp only [value?_settled_of_perm hnodup h, hfile, hiife, hreference, hrevision, houtput]
  rfl

theorem parse_of_perm_settings (h : (groups.map Group.entry).Perm request.settings) :
    parse ("emit" :: groups.flatMap Group.arguments) = .error .missingFile := by
  have hnodup : (settingsOf (groups.map Group.entry)).Nodup :=
    (h.map Prod.fst).nodup_iff.mpr request.nodup_settingsOf_entries.of_cons
  have hread := readAll_groups groups (List.nodup_iff_count_le_one.mp hnodup .file)
  rw [if_pos hnodup] at hread
  have hfile : (State.settled (groups.map Group.entry)).value? .file = none := by
    rw [value?_settled_of_perm hnodup h, ← Option.not_isSome_iff_eq_none, State.isSome_value?,
      decide_eq_true_iff]
    exact request.file_notMem_settings
  rw [parse_of_readAll hread, hfile]

theorem parse_of_repeated {again : List Group} (hagain : again ≠ [])
    (hgiven : ∀ group ∈ again, group.entry.1 ∈ settingsOf request.settings)
    (h : (groups.map Group.entry).Perm (request.entries ++ again.map Group.entry)) :
    parse ("emit" :: groups.flatMap Group.arguments) = .error .repeatedSetting := by
  have hsettings : (settingsOf (groups.map Group.entry)).Perm
      (settingsOf request.entries ++ settingsOf (again.map Group.entry)) := by
    rw [← settingsOf_append]
    exact h.map Prod.fst
  have hfile : (settingsOf (groups.map Group.entry)).count .file ≤ 1 := by
    have hnone : .file ∉ settingsOf (again.map Group.entry) := by
      intro hmem
      obtain ⟨entry, hentry, heq⟩ := List.mem_map.mp hmem
      obtain ⟨group, hgroup, rfl⟩ := List.mem_map.mp hentry
      exact request.file_notMem_settings (heq ▸ hgiven group hgroup)
    rw [hsettings.count_eq, List.count_append, List.count_eq_zero.mpr hnone]
    exact List.nodup_iff_count_le_one.mp request.nodup_settingsOf_entries .file
  have hrepeated : ¬ (settingsOf (groups.map Group.entry)).Nodup := by
    obtain ⟨group, rest, rfl⟩ := List.exists_cons_of_ne_nil hagain
    have hfirst : group.entry.1 ∈ settingsOf request.entries :=
      List.mem_cons_of_mem _ (hgiven group List.mem_cons_self)
    rw [hsettings.nodup_iff, List.nodup_append']
    exact fun hnodup => hnodup.2.2 hfirst List.mem_cons_self
  have hread := readAll_groups groups hfile
  rw [if_neg hrepeated] at hread
  rw [parse, parseEmit, hread]
  rfl

end Requests

/-- The order of the arguments and the spelling of the settings do not matter. A request that is
given group by group becomes its command; if settings are given again, whatever their values, that
is found, and so is a file that is missing. -/
theorem parse_request (request : Request) (groups : List Group) :
    ((groups.map Group.entry).Perm request.entries →
        parse ("emit" :: groups.flatMap Group.arguments) = .ok request.command) ∧
      (∀ again : List Group, again ≠ [] →
        (∀ group ∈ again, group.entry.1 ∈ settingsOf request.settings) →
        (groups.map Group.entry).Perm (request.entries ++ again.map Group.entry) →
        parse ("emit" :: groups.flatMap Group.arguments) = .error .repeatedSetting) ∧
      ((groups.map Group.entry).Perm request.settings →
        parse ("emit" :: groups.flatMap Group.arguments) = .error .missingFile) :=
  ⟨parse_of_perm_entries, fun _ => parse_of_repeated, parse_of_perm_settings⟩

/-- A file and values that look like other arguments, a flag that is given again, and no file. -/
theorem parse_request_reordered :
    let file : Word := ⟨"emit", by decide, by decide⟩
    let output : SettingValue := ⟨⟨"revision=1", by decide, by decide⟩, by decide⟩
    let revision : SettingValue := ⟨⟨"iife", by decide, by decide⟩, by decide⟩
    let request : Request := ⟨file, true, false, some revision, some output⟩
    let groups : List Group := [.output output (.short .apart), .revision revision .equals,
      .file file, .iife]
    (groups.map Group.entry).Perm request.entries ∧
      parse ["emit", "-o", "revision=1", "--revision=iife", "emit", "--iife"] =
        .ok (.emit "emit" ⟨true, false, "iife"⟩ (some "revision=1")) ∧
      parse ["emit", "--iife", "-o", "revision=1", "--revision=iife", "emit", "--iife"] =
        .error .repeatedSetting ∧
      parse ["emit", "-o", "revision=1", "--revision=iife", "--iife"] = .error .missingFile := by
  intro file output revision request groups
  have hperm : (groups.map Group.entry).Perm request.entries := by decide
  refine ⟨hperm, (parse_request request groups).1 hperm, ?_, ?_⟩
  · exact (parse_request request (.iife :: groups)).2.1 [.iife] (by decide) (by decide) (by decide)
  · exact (parse_request request [.output output (.short .apart), .revision revision .equals,
      .iife]).2.2 (by decide)

end Arguments

end ShaderScript
