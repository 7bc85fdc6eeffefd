import Microcomputer.Disk
import Microcomputer.Proofs.Accesses
import Microcomputer.Proofs.Files

/-!
# The life of a disk

A disk is loaded or made, read and written, and written back. Only what is written back reaches the files, and
then all of it: a file holds the last buffer that was written back to it, and is loaded as that.
-/
namespace Microcomputer

/-- The files of a host, and the disk that is in use. -/
structure Drive where
  files : FileSystem
  disk : Disk

namespace Drive

inductive Operation
  | load (path : String)
  | make (path : String) (bytes : Bytes)
  | access (call : Memory.Call)
  | persist

/-- An operation that fails leaves files and disk as they were. -/
def perform (drive : Drive) : Operation → Drive
  | .load path =>
    match Disk.load drive.files path with
    | .error _ => drive
    | .ok disk => { drive with disk := disk }
  | .make path bytes => { drive with disk := .ofBytes path bytes }
  | .access call =>
    { drive with disk := { drive.disk with buffer := (call.perform drive.disk.buffer).2 } }
  | .persist =>
    match drive.disk.persist drive.files with
    | .error _ => drive
    | .ok files => { drive with files := files }

/-- An operation, and what it finds. -/
structure Step where
  before : Drive
  operation : Operation

namespace Step

def after (step : Step) : Drive :=
  step.before.perform step.operation

/-- The operation is to write the disk back, and does not fail. -/
def persists (step : Step) : Bool :=
  match step.operation with
  | .persist => (step.before.disk.persist step.before.files).isOk
  | .load _ | .make _ _ | .access _ => false

/-- The buffer that the step writes to the file at `place`. -/
def written? (step : Step) (place : Location) : Option Memory :=
  if step.persists ∧ step.before.files.locate step.before.disk.path = .ok place then
    some step.before.disk.buffer
  else none

/-- The disk that takes the place of the one before. -/
def made? (step : Step) : Option Disk :=
  match step.operation with
  | .load path => (Disk.load step.before.files path).toOption
  | .make path bytes => some (.ofBytes path bytes)
  | .access _ | .persist => none

end Step

end Drive

/-- A file that a path leads to is loaded unless the host refuses. -/
theorem Disk.load_of_leads {files : FileSystem} {path : String} {place : Location} {bytes : Bytes}
    (leads : files.locate path = .ok place) (short : place.hasLongName = false)
    (node : files.node? place = some (.file bytes)) (plain : FileSystem.asksDirectory path = false) :
    Disk.load files path =
      match files.refusal? .read place with
      | some refusal => .error ⟨.loadDisk, path, .refused refusal⟩
      | none => .ok (.ofBytes path bytes) := by
  rw [Disk.load, FileSystem.read_of_leads leads short node plain]
  cases files.refusal? .read place <;> rfl

theorem Disk.persist_eq_ok {files later : FileSystem} {disk : Disk} :
    disk.persist files = .ok later ↔ files.write disk.path disk.buffer.bytes = .ok later := by
  rw [Disk.persist]
  cases files.write disk.path disk.buffer.bytes with
  | error cause => exact ⟨fun h => (nomatch h), fun h => (nomatch h)⟩
  | ok written => simp

theorem Disk.load_eq_ok {files : FileSystem} {path : String} {disk : Disk} :
    Disk.load files path = .ok disk ↔ ∃ bytes, files.read path = .ok bytes ∧ disk = .ofBytes path bytes := by
  rw [Disk.load]
  cases files.read path with
  | error cause => simp
  | ok bytes => simp [eq_comm]

namespace Drive

section Steps

variable {step : Step} {place : Location} {buffer : Memory}

/-- A write-back puts the whole buffer in the place of the file that the path of the disk leads to. -/
theorem Step.takes_of_persists (h : step.persists = true) : ∃ place,
    step.before.files.Takes step.before.disk.path place ∧
      step.after = ⟨step.before.files.put place (.file step.before.disk.buffer.bytes), step.before.disk⟩ := by
  obtain ⟨⟨files, disk⟩, operation⟩ := step
  -- Nothing but a write-back persists, and a write-back that fails does not.
  cases operation with
  | load | make | access => cases h
  | persist =>
    cases hpersist : disk.persist files with
    | error failure => simp [Step.persists, hpersist, Except.isOk, Except.toBool] at h
    | ok later =>
      obtain ⟨place, htakes, rfl⟩ := FileSystem.takes_of_write (Disk.persist_eq_ok.mp hpersist)
      exact ⟨place, htakes, by simp [Step.after, perform, hpersist]⟩

/-- Nothing else changes the files. -/
theorem Step.files_after (h : step.persists = false) : step.after.files = step.before.files := by
  obtain ⟨⟨files, disk⟩, operation⟩ := step
  cases operation with
  | load path =>
    simp only [Step.after, perform]
    cases Disk.load files path <;> rfl
  | make path bytes => rfl
  | access call => rfl
  | persist =>
    cases hpersist : disk.persist files with
    | error failure => simp [Step.after, perform, hpersist]
    | ok later => simp [Step.persists, hpersist, Except.isOk, Except.toBool] at h

theorem Step.written?_eq_some : step.written? place = some buffer ↔ step.persists = true ∧
    step.before.files.locate step.before.disk.path = .ok place ∧ step.before.disk.buffer = buffer := by
  simp only [Step.written?, Option.ite_none_right_eq_some, Option.some.injEq, and_assoc]

theorem Step.node?_after (step : Step) (place : Location) : step.after.files.node? place =
    ((step.written? place).map fun buffer => .file buffer.bytes).or (step.before.files.node? place) := by
  cases hpersists : step.persists with
  | false =>
    rw [step.files_after hpersists, Step.written?, if_neg (by simp [hpersists])]
    rfl
  | true =>
    obtain ⟨target, htakes, hafter⟩ := step.takes_of_persists hpersists
    rw [hafter]
    by_cases hplace : place = target
    · subst hplace
      rw [FileSystem.node?_put_self, Step.written?, if_pos ⟨hpersists, htakes.leads⟩]
      rfl
    · have helsewhere : ¬step.before.files.locate step.before.disk.path = .ok place := by
        rw [htakes.leads]
        exact fun heq => hplace (Except.ok.inj heq).symm
      rw [FileSystem.node?_put_of_ne hplace, Step.written?, if_neg fun h => helsewhere h.2]
      rfl

theorem Step.locate_after (step : Step) (path : String) (place : Location) :
    step.after.files.locate path = .ok place ↔ step.before.files.locate path = .ok place := by
  cases hpersists : step.persists with
  | false => rw [step.files_after hpersists]
  | true =>
    obtain ⟨target, htakes, hafter⟩ := step.takes_of_persists hpersists
    rw [hafter]
    exact FileSystem.locate_put_eq_ok htakes.free _

/-- Only another disk has another path or another size. -/
theorem Step.disk_after (step : Step) :
    step.after.disk.path = (step.made?.getD step.before.disk).path ∧
      step.after.disk.buffer.region = (step.made?.getD step.before.disk).buffer.region ∧
      step.after.disk.buffer.size = (step.made?.getD step.before.disk).buffer.size := by
  obtain ⟨⟨files, disk⟩, operation⟩ := step
  cases operation with
  | load path =>
    simp only [Step.after, perform, Step.made?]
    cases Disk.load files path <;> exact ⟨rfl, rfl, rfl⟩
  | make path bytes => exact ⟨rfl, rfl, rfl⟩
  | access call => exact ⟨rfl, call.perform_keeps_shape disk.buffer⟩
  | persist =>
    simp only [Step.after, perform, Step.made?]
    cases disk.persist files <;> exact ⟨rfl, rfl, rfl⟩

/-- A disk that is loaded or made counts its faults as those of a disk. -/
theorem Step.region_of_made? {disk : Disk} (h : step.made? = some disk) : disk.buffer.region = .disk := by
  obtain ⟨⟨files, old⟩, operation⟩ := step
  cases operation with
  | load path =>
    obtain ⟨bytes, -, rfl⟩ := Disk.load_eq_ok.mp (toOption_eq_some.mp h)
    rfl
  | make path bytes =>
    obtain rfl := Option.some.inj h
    rfl
  | access | persist => cases h

theorem Step.region_after (h : step.before.disk.buffer.region = .disk) :
    step.after.disk.buffer.region = .disk := by
  have hregion := step.disk_after.2.1
  cases hmade : step.made? with
  | some disk =>
    rw [hmade] at hregion
    exact hregion.trans (step.region_of_made? hmade)
  | none =>
    rw [hmade] at hregion
    exact hregion.trans h

/-- A write-back to the file at `place`, which can be loaded again as the disk that was written back. -/
structure Step.WritesBack (step : Step) (place : Location) : Prop where
  leads : step.before.files.locate step.before.disk.path = .ok place
  whole : step.after.files.node? place = some (.file step.before.disk.buffer.bytes)
  elsewhere : ∀ other, other ≠ place → step.after.files.node? other = step.before.files.node? other
  others : ∀ path bytes, step.before.files.locate path ≠ .ok place →
    (step.after.files.read path = .ok bytes ↔ step.before.files.read path = .ok bytes)
  refusals : step.after.files.refusal? = step.before.files.refusal?
  disk : step.after.disk = step.before.disk
  reload : Disk.load step.after.files step.before.disk.path =
    match step.before.files.refusal? .read place with
    | some refusal => .error ⟨.loadDisk, step.before.disk.path, .refused refusal⟩
    | none => .ok step.before.disk

theorem Step.writesBack (h : step.persists = true) (hregion : step.before.disk.buffer.region = .disk) :
    ∃ place, step.WritesBack place := by
  obtain ⟨place, htakes, hafter⟩ := step.takes_of_persists h
  have hleads : step.after.files.locate step.before.disk.path = .ok place :=
    (step.locate_after ..).mpr htakes.leads
  have hwhole : step.after.files.node? place = some (.file step.before.disk.buffer.bytes) := by
    rw [hafter]
    exact FileSystem.node?_put_self ..
  have hsame : Disk.ofBytes step.before.disk.path step.before.disk.buffer.bytes = step.before.disk := by
    rw [Disk.ofBytes, ← hregion]
  refine ⟨place, htakes.leads, hwhole, fun other hne => ?elsewhere, fun path bytes helse => ?others,
    ?refusals, ?disk, ?reload⟩
  case elsewhere =>
    rw [hafter]
    exact FileSystem.node?_put_of_ne hne
  case others =>
    rw [hafter]
    exact FileSystem.read_put_eq_ok htakes.free _ helse
  case refusals =>
    rw [hafter]
    rfl
  case disk => rw [hafter]
  case reload =>
    rw [Disk.load_of_leads hleads htakes.short hwhole htakes.plain, hsame, hafter]
    rfl

end Steps

def steps (drive : Drive) : List Operation → List Step
  | [] => []
  | operation :: operations => ⟨drive, operation⟩ :: (drive.perform operation).steps operations

def after (drive : Drive) (operations : List Operation) : Drive :=
  operations.foldl perform drive

/-- The buffer that was last written to the file at `place`. -/
def lastWritten? (drive : Drive) (operations : List Operation) (place : Location) : Option Memory :=
  (drive.steps operations).reverse.findSome? (·.written? place)

/-- The disk that was last loaded or made, or else the first one. -/
def lastMade (drive : Drive) (operations : List Operation) : Disk :=
  ((drive.steps operations).reverse.findSome? (·.made?)).getD drive.disk

section Runs

variable (start : Drive) (operations : List Operation)

theorem after_concat (operation : Operation) :
    start.after (operations ++ [operation]) = (start.after operations).perform operation := by
  rw [after, List.foldl_append]
  rfl

theorem steps_concat (operation : Operation) : start.steps (operations ++ [operation]) =
    start.steps operations ++ [⟨start.after operations, operation⟩] := by
  induction operations generalizing start with
  | nil => rfl
  | cons first operations ih =>
    rw [List.cons_append, steps, steps, ih, List.cons_append]
    rfl

theorem node?_after (place : Location) : (start.after operations).files.node? place =
    ((start.lastWritten? operations place).map fun buffer => .file buffer.bytes).or
      (start.files.node? place) := by
  induction operations using List.reverseRecOn with
  | nil => rfl
  | append_singleton operations operation ih =>
    have hstep := Step.node?_after ⟨start.after operations, operation⟩ place
    rw [after_concat, lastWritten?, steps_concat, List.reverse_concat, List.findSome?_cons]
    refine hstep.trans ?_
    rw [ih]
    cases Step.written? ⟨start.after operations, operation⟩ place <;> rfl

theorem locate_after (path : String) (place : Location) :
    (start.after operations).files.locate path = .ok place ↔ start.files.locate path = .ok place := by
  induction operations using List.reverseRecOn with
  | nil => exact Iff.rfl
  | append_singleton operations operation ih =>
    rw [after_concat]
    exact (Step.locate_after ⟨start.after operations, operation⟩ path place).trans ih

theorem disk_after : (start.after operations).disk.path = (start.lastMade operations).path ∧
    (start.after operations).disk.buffer.region = (start.lastMade operations).buffer.region ∧
    (start.after operations).disk.buffer.size = (start.lastMade operations).buffer.size := by
  induction operations using List.reverseRecOn with
  | nil => exact ⟨rfl, rfl, rfl⟩
  | append_singleton operations operation ih =>
    have hstep := Step.disk_after ⟨start.after operations, operation⟩
    rw [after_concat, lastMade, steps_concat, List.reverse_concat, List.findSome?_cons]
    cases hmade : Step.made? ⟨start.after operations, operation⟩ with
    | some disk =>
      rw [hmade] at hstep
      exact hstep
    | none =>
      rw [hmade] at hstep
      exact ⟨hstep.1.trans ih.1, hstep.2.1.trans ih.2.1, hstep.2.2.trans ih.2.2⟩

variable {start operations}

/-- All disks in use are disks, if the first one is. -/
theorem region_of_mem_steps (h : start.disk.buffer.region = .disk) {step : Step}
    (hmem : step ∈ start.steps operations) : step.before.disk.buffer.region = .disk := by
  induction operations generalizing start with
  | nil => cases hmem
  | cons operation operations ih =>
    rcases List.mem_cons.mp hmem with rfl | hlater
    · exact h
    · have hregion : (start.perform operation).disk.buffer.region = .disk :=
        Step.region_after (show (Step.mk start operation).before.disk.buffer.region = .disk from h)
      exact ih hregion hlater

/-- What was written last to a file is loaded from it. -/
theorem load_of_lastWritten? (h : start.disk.buffer.region = .disk) {place : Location} {buffer : Memory}
    (hwritten : start.lastWritten? operations place = some buffer) {path : String} {disk : Disk}
    (hleads : (start.after operations).files.locate path = .ok place)
    (hload : Disk.load (start.after operations).files path = .ok disk) : disk = ⟨path, buffer⟩ := by
  obtain ⟨bytes, hread, rfl⟩ := Disk.load_eq_ok.mp hload
  obtain ⟨found, hholds⟩ := FileSystem.holds_of_read hread
  obtain rfl := Except.ok.inj (hleads.symm.trans hholds.leads)
  have hnode := (start.node?_after operations place).symm.trans hholds.node
  rw [hwritten] at hnode
  obtain rfl : buffer.bytes = bytes := by simpa using hnode
  obtain ⟨step, hmem, hstep⟩ := List.exists_of_findSome?_eq_some hwritten
  obtain ⟨-, -, rfl⟩ := Step.written?_eq_some.mp hstep
  have hregion := region_of_mem_steps h (List.mem_reverse.mp hmem)
  rw [Disk.ofBytes, ← hregion]

end Runs

/--
Whatever is done with disks and whatever fails, the files change only when a disk is written back without
failure, and then no other file does. So a file holds the buffer that was last written to it, or what it held
at first. A disk keeps its size, and the disk that is loaded from a file that was written has the buffer that
was written.
-/
theorem files_hold_what_was_written_back (files : FileSystem) (path : String) (bytes : Bytes)
    (operations : List Operation) :
    let start : Drive := ⟨files, .ofBytes path bytes⟩
    let now := start.after operations
    (∀ step ∈ start.steps operations,
      (step.persists = false → step.after.files = step.before.files) ∧
      (step.persists = true → ∃ place, step.WritesBack place)) ∧
    (∀ place, now.files.node? place =
      ((start.lastWritten? operations place).map fun buffer => .file buffer.bytes).or (files.node? place)) ∧
    (∀ path place, now.files.locate path = .ok place ↔ files.locate path = .ok place) ∧
    (now.disk.path = (start.lastMade operations).path ∧
      now.disk.buffer.size = (start.lastMade operations).buffer.size) ∧
    ∀ place buffer, start.lastWritten? operations place = some buffer → ∀ path disk,
      now.files.locate path = .ok place → Disk.load now.files path = .ok disk → disk = ⟨path, buffer⟩ := by
  intro start now
  have hregion : start.disk.buffer.region = .disk := rfl
  have hdisk := start.disk_after operations
  refine ⟨fun step hmem => ⟨step.files_after, fun hpersists => ?_⟩, start.node?_after operations,
    start.locate_after operations, ⟨hdisk.1, hdisk.2.2⟩, fun place buffer hwritten path disk => ?_⟩
  · exact step.writesBack hpersists (region_of_mem_steps hregion hmem)
  · exact load_of_lastWritten? hregion hwritten

/-- A number that is written to the disk is not in the file before the disk is written back. -/
example :
    let files := FileSystem.bare.put ⟨.working, ["disk".toList]⟩ (.file #[0, 0, 0, 0, 9])
    let now := (⟨files, .ofBytes "" #[]⟩ : Drive).after [.load "disk", .access (.writeNumber 0 42)]
    now.files.read "disk" = .ok #[0, 0, 0, 0, 9] ∧
      (now.perform .persist).files.read "disk" = .ok #[0, 0, 2, 10, 9] := by
  decide +kernel

/-- The file `disk` beside no other. -/
def savedDisk : FileSystem :=
  FileSystem.bare.put ⟨.working, ["disk".toList]⟩ (.file #[0, 0, 0, 0, 9])

/-- Loads the disk, writes a number to it and writes it back, and goes on with another one. -/
def saves : List Operation :=
  [.load "disk", .access (.writeNumber 0 42), .persist, .make "scratch" #[1], .load "disk"]

/-- The disk is written back once, and what is loaded from its file later is what was written back. -/
theorem files_hold_what_was_written_back_saves :
    let start : Drive := ⟨savedDisk, .ofBytes "scratch" #[1]⟩
    let now := start.after saves
    (∃ load write persist more, start.steps saves = load :: write :: persist :: more ∧
      load.after.files = savedDisk ∧ persist.before.disk.buffer.bytes = #[0, 0, 2, 10, 9] ∧
      ∃ place, persist.WritesBack place) ∧
    Disk.load now.files "disk" = .ok ⟨"disk", ⟨.disk, #[0, 0, 2, 10, 9]⟩⟩ := by
  intro start now
  obtain ⟨hsteps, -, -, -, hloads⟩ := files_hold_what_was_written_back savedDisk "scratch" #[1] saves
  constructor
  · have hfacts : (start.steps saves).map (fun step => (step.persists, step.before.disk.buffer.bytes)) =
        [(false, #[1]), (false, #[0, 0, 0, 0, 9]), (true, #[0, 0, 2, 10, 9]),
          (false, #[0, 0, 2, 10, 9]), (false, #[1])] := by decide +kernel
    obtain ⟨load, _, hall, hload, hfacts⟩ := List.map_eq_cons_iff.mp hfacts
    obtain ⟨write, _, rfl, -, hfacts⟩ := List.map_eq_cons_iff.mp hfacts
    obtain ⟨persist, more, rfl, hpersist, -⟩ := List.map_eq_cons_iff.mp hfacts
    obtain ⟨hpersists, hbytes⟩ := Prod.mk.inj hpersist
    have hfirst : load.before.files = savedDisk := by
      rw [← (List.cons.inj hall).1]
    have hkept := (hsteps load (by simp [start, hall])).1 (Prod.mk.inj hload).1
    exact ⟨load, write, persist, more, hall, hkept.trans hfirst, hbytes,
      (hsteps persist (by simp [start, hall])).2 hpersists⟩
  · have hplace : now.files.locate "disk" = .ok ⟨.working, ["disk".toList]⟩ := by decide +kernel
    have hwritten : start.lastWritten? saves ⟨.working, ["disk".toList]⟩ =
        some ⟨.disk, #[0, 0, 2, 10, 9]⟩ := by decide +kernel
    have hloaded : (Disk.load now.files "disk").isOk = true := by decide +kernel
    cases hload : Disk.load now.files "disk" with
    | error failure =>
      rw [hload] at hloaded
      cases hloaded
    | ok disk => rw [hloads _ _ hwritten "disk" disk hplace hload]

end Drive
end Microcomputer
