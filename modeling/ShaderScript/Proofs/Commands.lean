import ShaderScript.Proofs.CommandSteps
import ShaderScript.Proofs.Wire.RoundTrip

/-!
# Commands do all or nothing

A command that generates a document reads one file, shows the problems of the program, and then
writes the document, to one file or to standard output. It succeeds exactly when the file holds a
program and the document can be put where it belongs; then it changes that place and no other. If it
fails, at whatever point, then no file has changed, and nothing has been printed unless standard
output gave way while it took the document. What a write to a file can run out of on the way, such
as room on the disk, is not modelled.
-/

namespace ShaderScript

/-! ## Places on a disk -/

namespace Disk

variable {disk : Disk} {location : Location}

theorem lookup_replace (entries : List (Location × Entry)) (location other : Location)
    (entry : Entry) :
    (entries.map fun known => if known.1 == location then (location, entry) else known).lookup
        other =
      if other = location then (entries.lookup other).map fun _ => entry
      else entries.lookup other := by
  induction entries with
  | nil => simp
  | cons known entries ih =>
    obtain ⟨place, old⟩ := known
    rw [List.map_cons, List.lookup_cons, List.lookup_cons, ih]
    by_cases hplace : place = location
    · subst hplace
      by_cases hother : other = place
      · simp [hother]
      · have hbeq : (other == place) = false := beq_eq_false_iff_ne.mpr hother
        simp [hother, hbeq]
    · by_cases hother : other = place
      · simp [hother, hplace]
      · have hbeq : (other == place) = false := beq_eq_false_iff_ne.mpr hother
        simp [hplace, hbeq]

/-- After a write, the place has what was put there, and every other place what it had. -/
theorem lookup_put (disk : Disk) (location other : Location) (entry : Entry) :
    (disk.put location entry).entries.lookup other =
      if other = location then some entry else disk.entries.lookup other := by
  unfold put
  by_cases hknown : (disk.entries.lookup location).isSome
  · obtain ⟨old, hold⟩ := Option.isSome_iff_exists.mp hknown
    rw [if_pos hknown, lookup_replace]
    by_cases hother : other = location
    · simp [hother, hold]
    · simp [hother]
  · have hnone := Option.not_isSome_iff_eq_none.mp hknown
    rw [if_neg hknown, List.lookup_append]
    by_cases hother : other = location
    · simp [hother, hnone]
    · have hbeq : (other == location) = false := beq_eq_false_iff_ne.mpr hother
      simp [hother, List.lookup_cons, hbeq]

theorem entry?_put_of_ne {other : Location} (h : other ≠ location) (entry : Entry) :
    Disk.entry? (disk.put location entry) other = disk.entry? other := by
  simp [lookup_put, entry?, h]

theorem entry?_put_self (h : disk.entry? location ≠ some .directory) (entry : Entry) :
    Disk.entry? (disk.put location entry) location = some entry := by
  have hinside : location.isOutside = false :=
    Bool.eq_false_iff.mpr fun houtside => h (by simp [houtside, entry?])
  simp [hinside, entry?, lookup_put]

/-- A way that leads somewhere is not cut off by what is put where no directory is. -/
theorem locate_put {start found : Location} {steps : List String}
    (h : disk.entry? location ≠ some .directory) (entry : Entry)
    (hfound : disk.locate start steps = .ok found) :
    (disk.put location entry).locate start steps = .ok found := by
  fun_induction locate disk start steps with
  | case1 start => exact hfound
  | case2 start last => exact hfound
  | case3 start step steps hmore next hnone => cases hfound
  | case4 start step steps hmore next other hother => cases hfound
  | case5 start step steps hmore next hdirectory ih =>
    have hne : next ≠ location := fun heq => h (heq ▸ hdirectory)
    have hnext : Disk.entry? (disk.put location entry) next = some .directory := by
      rw [entry?_put_of_ne hne, hdirectory]
    rw [locate]
    · simp only [hnext, next]
      exact ih hfound
    · exact hmore

theorem find_put {path : Path} {found : Location} (h : disk.entry? location ≠ some .directory)
    (entry : Entry) (hfound : disk.find path = .ok found) :
    (disk.put location entry).find path = .ok found := by
  unfold find at hfound ⊢
  split at hfound
  · cases hfound
  · rename_i hpath
    rw [if_neg hpath]
    exact locate_put h entry hfound

/-! ## Reading and writing -/

/-- A file can be written at the path: its directory is there, it leads to no directory, and it does
not end like the path of one. The place it leads to is `location`. -/
def Writable (disk : Disk) (path : String) (location : Location) : Prop :=
  disk.find (Path.ofText path) = .ok location ∧ (Path.ofText path).directory = false ∧
    disk.entry? location ≠ some .directory

/-- Whether a file can be written does not depend on the file. -/
theorem write_eq_ok_iff {path : String} {file : File} {after : Disk} :
    disk.write path file = .ok after ↔
      ∃ location, disk.Writable path location ∧ after = disk.put location (.file file) := by
  unfold write Writable
  cases hfind : disk.find (Path.ofText path) with
  | error error => simp [bind, Except.bind, hfind]
  | ok location =>
    by_cases hdirectory : (Path.ofText path).directory || disk.entry? location == some .directory
    · simp only [bind, Except.bind, hfind, hdirectory, if_true]
      simp only [Bool.or_eq_true, beq_iff_eq] at hdirectory
      grind
    · simp only [bind, Except.bind, hfind, hdirectory]
      simp only [Bool.or_eq_true, beq_iff_eq] at hdirectory
      grind

/-- What is written can be read again. -/
theorem open?_put {path : String} (h : disk.Writable path location) (file : File) :
    (disk.put location (.file file)).open? path = .ok (.file file) := by
  obtain ⟨hfind, hplain, hdirectory⟩ := h
  simp only [open?, find_put hdirectory _ hfind, bind, Except.bind, entry?_put_self hdirectory,
    hplain]
  rfl

end Disk

/-! ## Writing the document -/

namespace World

/-- There is a place for the text: standard output takes it, or the file at the path can be
written. -/
def Accepts (world : World) (output : Option String) (text : String) : Prop :=
  match output with
  | none => world.stdout.Takes text
  | some path => ∃ location, world.disk.Writable path location

/-- The text has gone to its place: to standard output, with the disk as it was, or else to the file
at the path, with every other place on the disk as it was. -/
def Delivered (world : World) (output : Option String) (text : String) (later : World) : Prop :=
  match output with
  | none => later.stdout.taken = world.stdout.taken ++ text.toUTF8 ∧ later.disk = world.disk
  | some path =>
    later.stdout = world.stdout ∧ ∃ location, world.disk.Writable path location ∧
      later.disk.open? path = .ok (.file ⟨text.toUTF8, 0⟩) ∧
      ∀ other ≠ location, later.disk.entry? other = world.disk.entry? other

/-- Writing the document succeeds if there is a place for it. -/
theorem run_writeDocument_ok {world : World} {output : Option String} {text : String}
    (h : world.Accepts output text) :
    ∃ later, world.run (writeDocument host text output) = (.ok (), later) ∧
      world.Delivered output text later ∧ later.stderr = world.stderr := by
  cases output with
  | none =>
    obtain ⟨limit?, hwrite⟩ := Stream.write_of_takes h
    refine ⟨{ world with stdout := ⟨world.stdout.taken ++ text.toUTF8, limit?⟩ }, ?_, ⟨rfl, rfl⟩,
      rfl⟩
    rw [writeDocument, run_print, hwrite]
    rfl
  | some path =>
    obtain ⟨location, hwritable⟩ := h
    let after := world.disk.put location (.file (.ofText text))
    have hwrite : world.disk.write path (.ofText text) = .ok after :=
      Disk.write_eq_ok_iff.mpr ⟨location, hwritable, rfl⟩
    refine ⟨{ world with disk := after }, ?_, ⟨rfl, location, hwritable,
      Disk.open?_put hwritable _, fun other hother => Disk.entry?_put_of_ne hother _⟩, rfl⟩
    rw [writeDocument, run_write, World.write, hwrite]
    rfl

/-- Otherwise it fails. The disk is as it was, and so is standard output unless it was to take the
text and broke off. -/
theorem run_writeDocument_error {world : World} {output : Option String} {text : String}
    (h : ¬ world.Accepts output text) :
    ∃ failure later, world.run (writeDocument host text output) = (.error failure, later) ∧
      failure.exitCode = 1 ∧ later.disk = world.disk ∧ later.stderr = world.stderr ∧
      (later.stdout = world.stdout ∨
        output = none ∧ world.stdout.BrokenOff text later.stdout) := by
  cases output with
  | none =>
    obtain ⟨error, stdout, hwrite, hbroken⟩ := Stream.write_of_not_takes h
    refine ⟨.unprintable error, { world with stdout }, ?_, rfl, rfl, rfl, .inr ⟨rfl, hbroken⟩⟩
    rw [writeDocument, run_print, hwrite]
    rfl
  | some path =>
    cases hwrite : world.disk.write path (.ofText text) with
    | ok after =>
      obtain ⟨location, hwritable, -⟩ := Disk.write_eq_ok_iff.mp hwrite
      exact absurd ⟨location, hwritable⟩ h
    | error error =>
      refine ⟨.unwritable path error, world, ?_, rfl, rfl, rfl, .inl rfl⟩
      rw [writeDocument, run_write, World.write, hwrite]
      rfl

/-! ## Generating a document -/

/-- If the file has no program, the command ends where it was. If it has one, then its warnings have
been shown by the time the document is written. -/
theorem run_emitFile (world : World) (file : String) (options : Options)
    (output : Option String) :
    (∃ program, world.disk.Provides file program ∧
      world.run (emitFile host file options output) =
        (world.warned (program.document options).diagnostics).run
          (writeDocument host (program.generate options) output)) ∨
    ∃ failure, failure.exitCode = 1 ∧ (∀ program, ¬ world.disk.Provides file program) ∧
      world.run (emitFile host file options output) = (.error failure, world) := by
  unfold emitFile Disk.Provides
  obtain ⟨text, htext, hread⟩ | ⟨failure, hcode, hnone, hread⟩ := world.run_readSource file
  · rw [run_bind_ok hread]
    have hload := world.run_loadProgram file text
    cases hprogram : Program.load text with
    | error error =>
      rw [hprogram] at hload
      refine .inr ⟨.invalid file error, rfl, ?_, run_bind_error hload _⟩
      rintro program ⟨other, hother, hloaded⟩
      rw [hother.unique htext, hprogram] at hloaded
      cases hloaded
    | ok program =>
      rw [hprogram] at hload
      refine .inl ⟨program, ⟨text, htext, hprogram⟩, ?_⟩
      rw [run_bind_ok hload, run_bind_ok (world.run_showWarnings _)]
      rfl
  · refine .inr ⟨failure, hcode, ?_, run_bind_error hread _⟩
    rintro program ⟨text, htext, -⟩
    exact hnone text htext

end World

/-- **Generating a document does all or nothing.** The exit code is 0 exactly when the file provides
a program and there is a place for the text of its document; then the text, in UTF-8, is there, and
nothing else has changed. Otherwise the exit code is 1 and the disk is as it was. Nothing has been
printed either, if standard output takes everything; if not, it may have been to take the text and
have broken off in it. The problems found in the program are shown before the text is written,
whether this succeeds or not, and have no part in anything else. -/
theorem emit_all_or_nothing (world : World) {arguments : List String} {file : String}
    {options : Options} {output : Option String}
    (h : Arguments.parse arguments = .ok (.emit file options output)) :
    let exitCode := (world.execute arguments).1
    let later := (world.execute arguments).2
    (exitCode = 0 ∨ exitCode = 1) ∧
    (exitCode = 1 → later.disk = world.disk ∧
      (world.stdout.limit? = none → later.stdout = world.stdout) ∧
      (later.stdout = world.stdout ∨ output = none ∧ ∃ program, world.disk.Provides file program ∧
        world.stdout.BrokenOff (program.generate options) later.stdout)) ∧
    (exitCode = 0 ↔ ∃ program, world.disk.Provides file program ∧
      world.Accepts output (program.generate options)) ∧
    ∀ program, world.disk.Provides file program →
      let shown := world.stderr ++ (program.document options).diagnostics.map .warning
      (exitCode = 0 → world.Delivered output (program.generate options) later ∧
        later.stderr = shown) ∧
      (exitCode = 1 → ∃ failure : Failure,
        later.stderr = shown ++ [.text (failure.message ++ "\n")]) := by
  obtain ⟨program, hprogram, hrun⟩ | ⟨failure, hcode, hnone, hrun⟩ :=
    world.run_emitFile file options output
  · have hsame : ∀ other, world.disk.Provides file other → other = program :=
      fun other hother => hother.unique hprogram
    -- The warnings touch neither the disk nor standard output.
    let shown := world.warned (program.document options).diagnostics
    by_cases haccepts : shown.Accepts output (program.generate options)
    · obtain ⟨later, hwrite, hdelivered, hstderr⟩ := World.run_writeDocument_ok haccepts
      rw [World.execute_ok h (hrun.trans hwrite)]
      refine ⟨.inl rfl, nofun, ⟨fun _ => ⟨program, hprogram, haccepts⟩, fun _ => rfl⟩, ?_⟩
      intro other hother
      obtain rfl := hsame other hother
      exact ⟨fun _ => ⟨hdelivered, hstderr⟩, nofun⟩
    · obtain ⟨failure, later, hwrite, hcode, hdisk, hstderr, hstdout⟩ :=
        World.run_writeDocument_error haccepts
      rw [World.execute_error h (hrun.trans hwrite), hcode]
      refine ⟨.inr rfl, fun _ => ⟨hdisk, fun hall => ?_, ?_⟩, ⟨nofun, ?_⟩, ?_⟩
      · exact hstdout.resolve_right fun ⟨_, hbroken⟩ => hbroken.limited hall
      · exact hstdout.imp id fun ⟨hnone, hbroken⟩ => ⟨hnone, program, hprogram, hbroken⟩
      · rintro ⟨other, hother, hplace⟩
        obtain rfl := hsame other hother
        exact absurd hplace haccepts
      · intro other hother
        obtain rfl := hsame other hother
        refine ⟨nofun, fun _ => ⟨failure, ?_⟩⟩
        rw [World.notify, hstderr]
        rfl
  · rw [World.execute_error h hrun, hcode]
    refine ⟨.inr rfl, fun _ => ⟨rfl, fun _ => rfl, .inl rfl⟩, ⟨nofun, ?_⟩, ?_⟩
    · rintro ⟨program, hprogram, -⟩
      exact absurd hprogram (hnone program)
    · intro program hprogram
      exact absurd hprogram (hnone program)

/-- A file that a text was written to has that text. -/
theorem File.text?_ofText (text : String) : (File.ofText text).text? = some text := by
  simp only [File.text?, File.content, File.ofText, Nat.repeat, String.fromUTF8?,
    String.toUTF8_eq_toByteArray, dif_pos text.isValidUTF8]
  rfl

/-- A saved program with an unknown statement, whose document replaces an older one. -/
theorem emit_over_older_document :
    let program : Program := ⟨[.unknown]⟩
    let disk : Disk := ⟨[(["in.json"], .file (.ofText program.save)),
      (["out.js"], .file (.ofText "old"))]⟩
    let arguments := ["emit", "in.json", "-o", "out.js"]
    let later := ((World.start disk).execute arguments).2
    Arguments.parse arguments = .ok (.emit "in.json" .default (some "out.js")) ∧
      disk.Provides "in.json" program ∧ disk.Writable "out.js" ["out.js"] ∧
      ((World.start disk).execute arguments).1 = 0 ∧ later.stdout = .empty ∧
      later.stderr = [.warning .unknownNode] ∧
      later.disk.open? "out.js" = .ok (.file ⟨(program.generate .default).toUTF8, 0⟩) := by
  intro program disk arguments later
  have hparse : Arguments.parse arguments = .ok (.emit "in.json" .default (some "out.js")) := rfl
  have hprovides : disk.Provides "in.json" program := by
    have hdepth : Json.bracketDepth program.save ≤ 127 := by
      rw [Wire.bracketDepth_save]
      decide +kernel
    have hsize : (File.ofText program.save).size ≤ 104857600 := by decide +kernel
    refine ⟨program.save, ⟨.ofText program.save, rfl, hsize, File.text?_ofText _⟩, ?_⟩
    rw [Program.load, (Wire.readAll_saved program).ok hdepth]
  have hwritable : disk.Writable "out.js" ["out.js"] := ⟨rfl, rfl, by decide +kernel⟩
  obtain ⟨-, -, hzero, hdelivers⟩ := emit_all_or_nothing (World.start disk) hparse
  have hexit := hzero.mpr ⟨program, hprovides, _, hwritable⟩
  obtain ⟨⟨hstdout, -, -, hopen, -⟩, hstderr⟩ := (hdelivers program hprovides).1 hexit
  exact ⟨hparse, hprovides, hwritable, hexit, hstdout, hstderr, hopen⟩

end ShaderScript
