import Mathlib.Tactic.Common
import ShaderScript.Command.Run

/-!
# The steps of a command

What each step of a command does to the world. Reading leaves it as it is, warnings are added to
standard error one after the other, and a write changes one place or fails. A command that fails
keeps what its steps have done before.
-/

namespace ShaderScript

/-! ## Standard output -/

namespace Stream

variable {stream : Stream} {text : String}

/-- The stream has broken off in the text: it has taken as much of it as there was room for. -/
def BrokenOff (stream : Stream) (text : String) (later : Stream) : Prop :=
  ∃ room error, stream.limit? = some (room, error) ∧ room < text.toUTF8.size ∧
    later = ⟨stream.taken ++ text.toUTF8.extract 0 room, some (0, error)⟩

theorem BrokenOff.limited {later : Stream} (h : stream.BrokenOff text later) :
    stream.limit? ≠ none := by
  obtain ⟨room, error, hlimit, -⟩ := h
  simp [hlimit]

theorem takes_of_unlimited (h : stream.limit? = none) (text : String) : stream.Takes text := by
  simp [Takes, h]

theorem takes_iff_of_limited {room : Nat} {error : OsError} (h : stream.limit? = some (room, error)) :
    stream.Takes text ↔ text.toUTF8.size ≤ room := by
  simp [Takes, h]

theorem write_of_takes (h : stream.Takes text) :
    ∃ limit?, stream.write text = (.ok (), ⟨stream.taken ++ text.toUTF8, limit?⟩) := by
  unfold write
  cases hlimit : stream.limit? with
  | none => exact ⟨none, rfl⟩
  | some limit =>
    obtain ⟨room, error⟩ := limit
    exact ⟨some (room - text.toUTF8.size, error), if_pos ((takes_iff_of_limited hlimit).mp h)⟩

theorem write_of_not_takes (h : ¬ stream.Takes text) :
    ∃ error later, stream.write text = (.error error, later) ∧ stream.BrokenOff text later := by
  unfold write
  cases hlimit : stream.limit? with
  | none => exact absurd (takes_of_unlimited hlimit text) h
  | some limit =>
    obtain ⟨room, error⟩ := limit
    rw [takes_iff_of_limited hlimit] at h
    exact ⟨error, _, if_neg h, room, error, hlimit, Nat.not_le.mp h, rfl⟩

end Stream

/-! ## One step after the other -/

namespace World

variable {α β : Type} {world later : World}

section Sequence

variable {step : ExceptT Failure (StateM World) α}

theorem run_bind_ok {value : α} (h : world.run step = (.ok value, later))
    (next : α → ExceptT Failure (StateM World) β) :
    world.run (step >>= next) = later.run (next value) := by
  unfold run at h ⊢
  rw [ExceptT.run_bind, StateT.run_bind]
  simp only [h, bind]

/-- A step that fails is the last one. -/
theorem run_bind_error {failure : Failure} (h : world.run step = (.error failure, later))
    (next : α → ExceptT Failure (StateM World) β) :
    world.run (step >>= next) = (.error failure, later) := by
  unfold run at h ⊢
  rw [ExceptT.run_bind, StateT.run_bind]
  simp only [h, bind]
  rfl

end Sequence

/-- Whether an operation succeeds or fails, the step has the effect of the operation. -/
theorem run_attempt (world : World) (failure : OsError → Failure)
    (operation : StateM World (Except OsError α)) :
    world.run (attempt failure operation) =
      ((operation.run world).1.mapError failure, (operation.run world).2) := by
  unfold run attempt
  rw [ExceptT.run_adapt, StateT.run_map]
  rfl

end World

/-! ## Reading -/

/-- The file at the path is not too large, and its text is this. -/
def Disk.Holds (disk : Disk) (path text : String) : Prop :=
  ∃ source, disk.open? path = .ok (.file source) ∧ source.size ≤ 104857600 ∧
    source.text? = some text

theorem Disk.Holds.unique {disk : Disk} {path text other : String} (h : disk.Holds path text)
    (hother : disk.Holds path other) : text = other := by
  obtain ⟨source, hopen, -, htext⟩ := h
  obtain ⟨source', hopen', -, htext'⟩ := hother
  cases hopen.symm.trans hopen'
  exact Option.some.inj (htext.symm.trans htext')

/-- The file at the path has the text of the program. -/
def Disk.Provides (disk : Disk) (path : String) (program : Program) : Prop :=
  ∃ text, disk.Holds path text ∧ Program.load text = .ok program

theorem Disk.Provides.unique {disk : Disk} {path : String} {program other : Program}
    (h : disk.Provides path program) (hother : disk.Provides path other) : program = other := by
  obtain ⟨text, htext, hload⟩ := h
  obtain ⟨text', htext', hload'⟩ := hother
  rw [← htext.unique htext'] at hload'
  exact Except.ok.inj (hload.symm.trans hload')

namespace World

theorem run_size (world : World) (path : String) :
    world.run (attempt (.inaccessible path) (host.size path)) =
      ((world.size path).mapError (.inaccessible path), world) := by
  rw [run_attempt]
  rfl

theorem run_read (world : World) (path : String) :
    world.run (attempt (.unreadable path) (host.read path)) =
      ((world.read path).mapError (.unreadable path), world) := by
  rw [run_attempt]
  rfl

/-- Reading a file changes nothing, whether it succeeds or not. -/
theorem run_readSource (world : World) (path : String) :
    (∃ text, world.disk.Holds path text ∧
      world.run (readSource host path) = (.ok text, world)) ∨
    ∃ failure, failure.exitCode = 1 ∧ (∀ text, ¬ world.disk.Holds path text) ∧
      world.run (readSource host path) = (.error failure, world) := by
  have hsize := world.run_size path
  have hread := world.run_read path
  unfold readSource Disk.Holds
  unfold World.size at hsize
  unfold World.read at hread
  cases hopen : world.disk.open? path with
  | error error =>
    rw [hopen] at hsize
    exact .inr ⟨.inaccessible path error, rfl, by simp, run_bind_error hsize _⟩
  | ok entry =>
    rw [hopen] at hsize hread
    cases entry with
    | directory =>
      refine .inr ⟨.unreadable path .isDirectory, rfl, by simp, ?_⟩
      rw [run_bind_ok hsize, if_neg (by decide), run_bind_error hread]
    | file source =>
      replace hsize : world.run (attempt (.inaccessible path) (host.size path)) =
        (.ok source.size, world) := hsize
      replace hread : world.run (attempt (.unreadable path) (host.read path)) =
        (.ok source.content, world) := hread
      rw [run_bind_ok hsize]
      by_cases hlarge : maxSourceSize < source.size
      · have hover : ¬ source.size ≤ 104857600 := Nat.not_le.mpr hlarge
        refine .inr ⟨.tooLarge path source.size, rfl, by simp [hover], ?_⟩
        rw [if_pos hlarge]
        rfl
      · have hfits : source.size ≤ 104857600 := Nat.not_lt.mp hlarge
        rw [if_neg hlarge, run_bind_ok hread]
        cases htext : String.fromUTF8? source.content with
        | none => exact .inr ⟨.notText path, rfl, by simp [File.text?, htext], rfl⟩
        | some text => exact .inl ⟨text, ⟨source, rfl, hfits, htext⟩, rfl⟩

/-- Loading touches nothing. -/
theorem run_loadProgram (world : World) (path text : String) :
    world.run (loadProgram path text) =
      ((Program.load text).mapError (.invalid path), world) := by
  unfold loadProgram
  cases Program.load text <;> rfl

/-! ## Warnings -/

/-- The world after the warnings have been shown. -/
def warned (world : World) (diagnostics : List Diagnostic) : World :=
  { world with stderr := world.stderr ++ diagnostics.map .warning }

theorem run_forM_notify (world : World) (diagnostics : List Diagnostic) :
    StateT.run (diagnostics.forM fun diagnostic => host.notify (.warning diagnostic)) world =
      ((), world.warned diagnostics) := by
  induction diagnostics generalizing world with
  | nil =>
    simp [warned, List.forM]
    rfl
  | cons diagnostic diagnostics ih =>
    rw [List.forM_eq_forM, List.forM_cons, ← List.forM_eq_forM, StateT.run_bind]
    have hstep : (host.notify (.warning diagnostic)).run world =
      ((), world.warned [diagnostic]) := rfl
    simp only [hstep, bind]
    rw [ih]
    simp [warned]

theorem run_showWarnings (world : World) (diagnostics : List Diagnostic) :
    world.run (showWarnings host diagnostics) = (.ok (), world.warned diagnostics) := by
  unfold run showWarnings
  rw [ExceptT.run_lift, StateT.run_map, run_forM_notify]
  rfl

/-! ## Writing -/

theorem run_print (world : World) (failure : OsError → Failure) (text : String) :
    world.run (attempt failure (host.print text)) =
      ((world.stdout.write text).1.mapError failure,
        { world with stdout := (world.stdout.write text).2 }) := by
  rw [run_attempt]
  rfl

theorem run_write (world : World) (path text : String) :
    world.run (attempt (.unwritable path) (host.write path text)) =
      ((world.write path text).1.mapError (.unwritable path), (world.write path text).2) := by
  rw [run_attempt]
  rfl

/-- As long as standard output takes everything, a listing gets there line by line. -/
theorem run_forM_print (disk : Disk) (taken : ByteArray) (stderr : List Notice)
    (symbols : List Symbol) :
    World.run ⟨disk, ⟨taken, none⟩, stderr⟩
        (symbols.forM fun symbol => attempt .listingBroken (host.print (symbolLine symbol))) =
      (.ok (), ⟨disk, ⟨taken ++ (String.join (symbols.map symbolLine)).toUTF8, none⟩, stderr⟩) := by
  induction symbols generalizing taken with
  | nil =>
    simp
    rfl
  | cons symbol symbols ih =>
    rw [List.forM_eq_forM, List.forM_cons, ← List.forM_eq_forM, run_bind_ok (run_print _ _ _)]
    simp only [Stream.write]
    rw [ih]
    simp [String.join_cons, ByteArray.append_assoc]

/-! ## The whole program -/

section Execute

variable {world later : World} {arguments : List String} {command : Command}
  (hparse : Arguments.parse arguments = .ok command)

include hparse

theorem execute_ok (hrun : world.run (command.run host) = (.ok (), later)) :
    world.execute arguments = (0, later) := by
  unfold run at hrun
  unfold execute ShaderScript.execute
  rw [hparse, StateT.run_bind]
  simp only [hrun, bind]
  rfl

theorem execute_error {failure : Failure}
    (hrun : world.run (command.run host) = (.error failure, later)) :
    world.execute arguments =
      (failure.exitCode, later.notify (.text (failure.message ++ "\n"))) := by
  unfold run at hrun
  unfold execute ShaderScript.execute
  rw [hparse, StateT.run_bind]
  simp only [hrun, bind]
  rfl

end Execute

end World

end ShaderScript
