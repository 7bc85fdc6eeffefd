import Microcomputer.Boot
import Microcomputer.Proofs.Failing
import Microcomputer.Proofs.Files

/-!
# What a boot leaves in the files

A boot that cannot load both files changes none. Any other boot that ends, however the bios came to rest,
writes the disk buffer as it stood then over the file of the disk, and nothing else. The answer is the
refusal of that write if there is one, else that of the run.
-/
namespace Microcomputer

/-- Not even a byte that was received in vain came from the disk. -/
theorem Code.Spares.disk_eq {code : Code} {offset : Nat} {before after : Machine}
    (h : code.Spares offset before after) : after.disk = before.disk := by
  rcases h with rfl | ⟨-, rfl | ⟨byte, rest, -, rfl⟩⟩
  · rfl
  · rfl
  · rfl

namespace Boot

variable {config : Config} {files : FileSystem} {console : Console}

/-- Booting ends as `outcome` and in no other way. -/
def EndsOnlyAs (config : Config) (files : FileSystem) (console : Console) (outcome : Outcome) : Prop :=
  ∀ other, Ends config files console other ↔ other = outcome

theorem load_of_bios_error {cause : FileError} (h : files.read config.biosPath = .error cause) :
    load config files = ([], .error (.files ⟨.loadBios, config.biosPath, cause⟩)) := by
  simp only [load, loadBios, h]

section Loads

variable {bios : Bytes} (hbios : files.read config.biosPath = .ok bios)

include hbios

theorem load_of_disk_error {cause : FileError} (h : files.read config.diskPath = .error cause) :
    ∃ log, load config files = (log, .error (.files ⟨.loadDisk, config.diskPath, cause⟩)) := by
  simp only [load, loadBios, hbios, Disk.load, h]
  exact ⟨_, rfl⟩

theorem load_of_ok {image : Bytes} (h : files.read config.diskPath = .ok image) :
    ∃ log, load config files = (log, .ok (bios, .ofBytes config.diskPath image)) := by
  simp only [load, loadBios, hbios, Disk.load, h]
  exact ⟨_, rfl⟩

end Loads

theorem endsOnlyAs_of_load_error {log : List Record} {error : BootError}
    (h : load config files = (log, .error error)) :
    EndsOnlyAs config files console (refused files log error) := by
  intro other
  rw [Ends, h]

theorem endsOnlyAs_of_settles {log : List Record} {bios : Bytes} {disk : Disk} {final : Engine}
    (h : load config files = (log, .ok (bios, disk)))
    (settles : (engine config console bios disk).Settles final) :
    EndsOnlyAs config files console (finish files log final) := by
  intro other
  rw [Ends, h]
  constructor
  · rintro ⟨rested, hrested, rfl⟩
    rw [settles.unique hrested]
  · rintro rfl
    exact ⟨final, settles, rfl⟩

/-- However the bios came to rest, the disk has its path and its size. -/
theorem disk_of_settles {bios image : Bytes} {final : Engine}
    (settles : (engine config console bios (.ofBytes config.diskPath image)).Settles final) :
    final.session.machine.disk.path = config.diskPath ∧
      final.session.machine.disk.buffer.bytes.size = image.size := by
  obtain ⟨count, rfl, -⟩ := settles
  have hshape := Engine.steps_shape count (engine config console bios (.ofBytes config.diskPath image))
  exact ⟨congrArg Shape.path hshape, congrArg Shape.disk hshape⟩

/-- A run that failed left the disk as the statements before the failing one did. -/
theorem disk_of_failure {bios : Bytes} {disk : Disk} {final : Engine} {failure : Failure}
    (settles : (engine config console bios disk).Settles final) (h : final.failure = some failure) :
    ∃ count, ((engine config console bios disk).steps count).failure = none ∧
      ((engine config console bios disk).steps (count + 1)) = final ∧
      final.session.machine.disk =
        ((engine config console bios disk).steps count).session.machine.disk := by
  obtain ⟨count, rfl, -⟩ := settles
  obtain ⟨before, -, frame, hbreaks⟩ := Engine.breaks_of_steps rfl h
  refine ⟨before, hbreaks.working, ?_, hbreaks.spared.disk_eq⟩
  rw [Engine.steps_succ, hbreaks.rests.1]

section Finish

variable (log : List Record) {final : Engine}
  (hpath : final.session.machine.disk.path = config.diskPath)

include hpath

theorem finish_of_refused {cause : FileError}
    (h : files.write config.diskPath final.session.machine.disk.buffer.bytes = .error cause) :
    (finish files log final).files = files ∧
      (finish files log final).result = .error (.files ⟨.persistDisk, config.diskPath, cause⟩) := by
  have hpersist : final.session.machine.disk.persist files =
      .error ⟨.persistDisk, config.diskPath, cause⟩ := by
    rw [Disk.persist, hpath, h]
  simp only [finish, hpersist, and_self]

theorem finish_of_written {written : FileSystem}
    (h : files.write config.diskPath final.session.machine.disk.buffer.bytes = .ok written) :
    (finish files log final).files = written ∧
      (finish files log final).result = final.result.mapError .execution := by
  have hpersist : final.session.machine.disk.persist files = .ok written := by
    rw [Disk.persist, hpath, h]
  simp only [finish, hpersist]
  cases final.result <;> exact ⟨rfl, rfl⟩

end Finish

/--
What is left once the engine that had loaded `image` as its disk came to rest as `final`, having begun as
`start`.
-/
structure WrittenBack (config : Config) (files : FileSystem) (image : Bytes) (start final : Engine)
    (outcome : Outcome) : Prop where
  size_eq : final.session.machine.disk.buffer.bytes.size = image.size
  /-- The write fails only if the host refuses it, and then no file is touched. -/
  refused : ∀ cause, files.write config.diskPath final.session.machine.disk.buffer.bytes = .error cause →
    (∃ refusal, cause = .refused refusal) ∧ outcome.files = files ∧
      outcome.result = .error (.files ⟨.persistDisk, config.diskPath, cause⟩)
  written : ∀ after, files.write config.diskPath final.session.machine.disk.buffer.bytes = .ok after →
    outcome.files.read config.diskPath = .ok final.session.machine.disk.buffer.bytes ∧
      ∀ failure, final.result = .error failure → outcome.result = .error (.execution failure)
  others : ∀ path, ¬ files.Same path config.diskPath → outcome.files.read path = files.read path
  elsewhere : ∀ place, files.locate config.diskPath ≠ .ok place →
    outcome.files.node? place = files.node? place
  ok_iff : outcome.result = .ok () ↔ final.result = .ok () ∧
    ∃ after, files.write config.diskPath final.session.machine.disk.buffer.bytes = .ok after
  /-- The failure of a statement goes before that of the flush. -/
  precedence : ∀ failure, final.failure = some failure → final.result = .error failure
  /-- A failing statement left the disk as the statements before it did. -/
  unfinished : ∀ failure, final.failure = some failure →
    ∃ count, (start.steps count).failure = none ∧ start.steps (count + 1) = final ∧
      final.session.machine.disk = (start.steps count).session.machine.disk

theorem writtenBack {bios image : Bytes} {start final : Engine} (log : List Record)
    (hread : files.read config.diskPath = .ok image)
    (hstart : start = engine config console bios (.ofBytes config.diskPath image))
    (settles : start.Settles final) :
    WrittenBack config files image start final (finish files log final) := by
  subst hstart
  obtain ⟨hpath, size_eq⟩ := disk_of_settles settles
  obtain ⟨place, holds⟩ := FileSystem.holds_of_read hread
  have hwrite := holds.write final.session.machine.disk.buffer.bytes
  have precedence : ∀ failure, final.failure = some failure → final.result = .error failure := by
    intro failure h
    rw [Engine.result, h]
  have unfinished := fun (failure : Failure) (h : final.failure = some failure) => disk_of_failure settles h
  cases hrefusal : files.refusal? .write place with
  | some refusal =>
    simp only [hrefusal] at hwrite
    obtain ⟨hfiles, hresult⟩ := finish_of_refused log hpath hwrite
    exact {
      size_eq
      refused := by
        intro cause h
        obtain rfl := Except.error.inj (hwrite.symm.trans h)
        exact ⟨⟨refusal, rfl⟩, hfiles, hresult⟩
      written := fun after h => nomatch hwrite.symm.trans h
      others := fun path _ => by rw [hfiles]
      elsewhere := fun place _ => by rw [hfiles]
      ok_iff := by simp [hresult, hwrite]
      precedence
      unfinished }
  | none =>
    simp only [hrefusal] at hwrite
    obtain ⟨hfiles, hresult⟩ := finish_of_written log hpath hwrite
    have hleft : FileSystem.Holds (finish files log final).files config.diskPath place
        final.session.machine.disk.buffer.bytes := by
      rw [hfiles]
      exact holds.put _
    exact {
      size_eq
      refused := fun cause h => nomatch hwrite.symm.trans h
      written := by
        intro after _
        refine ⟨hleft.read, ?_⟩
        intro failure h
        rw [hresult, h]
        rfl
      others := by
        intro path apart
        rw [hfiles]
        apply FileSystem.read_put_file_of_not_leads holds.node
        exact fun h => apart ⟨place, h, holds.leads⟩
      elsewhere := by
        intro other h
        rw [hfiles]
        apply FileSystem.node?_put_of_ne
        rintro rfl
        exact h holds.leads
      ok_iff := by
        rw [hresult, hwrite]
        cases final.result <;> simp [Except.mapError]
      precedence
      unfinished }

/--
A boot that cannot read both of its files ends with that error and changes no file. Otherwise it ends if
the bios comes to rest, and what it leaves is the disk as it was then.
-/
theorem boot_writes_disk_back (config : Config) (files : FileSystem) (console : Console)
    (apart : ¬ files.Same config.biosPath config.diskPath) :
    (∀ cause, files.read config.biosPath = .error cause →
      ∃ outcome, EndsOnlyAs config files console outcome ∧ outcome.files = files ∧
        outcome.result = .error (.files ⟨.loadBios, config.biosPath, cause⟩)) ∧
    (∀ bios cause, files.read config.biosPath = .ok bios → files.read config.diskPath = .error cause →
      ∃ outcome, EndsOnlyAs config files console outcome ∧ outcome.files = files ∧
        outcome.result = .error (.files ⟨.loadDisk, config.diskPath, cause⟩)) ∧
    ∀ bios image start final, files.read config.biosPath = .ok bios →
      files.read config.diskPath = .ok image →
      start = engine config console bios (.ofBytes config.diskPath image) → start.Settles final →
      ∃ outcome, EndsOnlyAs config files console outcome ∧
        WrittenBack config files image start final outcome ∧
        outcome.files.read config.biosPath = .ok bios := by
  refine ⟨?unreadableBios, ?unreadableDisk, ?ran⟩
  case unreadableBios =>
    intro cause h
    exact ⟨_, endsOnlyAs_of_load_error (load_of_bios_error h), rfl, rfl⟩
  case unreadableDisk =>
    intro bios cause hbios h
    obtain ⟨log, hload⟩ := load_of_disk_error hbios h
    exact ⟨_, endsOnlyAs_of_load_error hload, rfl, rfl⟩
  case ran =>
    intro bios image start final hbios hdisk hstart settles
    obtain ⟨log, hload⟩ := load_of_ok hbios hdisk
    have hleft := writtenBack log hdisk hstart settles
    rw [hstart] at settles
    refine ⟨finish files log final, endsOnlyAs_of_settles hload settles, hleft, ?_⟩
    rw [hleft.others _ apart, hbios]

/-- A bios that writes to the disk and then divides by zero. -/
def divider : Bytes :=
  #[0x0F, 0, 3, 0, 0, 0, 7, 3, 0, 0, 0, 0, 0x05, 0, 3, 0, 0, 0, 1, 3, 0, 0, 0, 0, 0, 0, 0, 0, 0]

def dividerConfig : Config where
  ramSize := 0
  registers := 1
  maxDepth := 0
  biosPath := "bios"
  diskPath := "disk"

def dividerFiles : FileSystem :=
  (FileSystem.bare.put ⟨.working, ["bios".toList]⟩ (.file divider)).put ⟨.working, ["disk".toList]⟩
    (.file #[9, 9, 9, 9, 9])

theorem boot_writes_disk_back_divider :
    ¬ dividerFiles.Same "bios" "disk" ∧
      ∃ outcome, EndsOnlyAs dividerConfig dividerFiles (.ofInput []) outcome ∧
        outcome.files.read "disk" = .ok #[0, 0, 0, 7, 9] ∧ outcome.files.read "bios" = .ok divider ∧
        outcome.result = .error (.execution ⟨.divisionByZero, 12, 0⟩) := by
  have hbios : dividerFiles.locate "bios" = .ok ⟨.working, ["bios".toList]⟩ := rfl
  have hdisk : dividerFiles.locate "disk" = .ok ⟨.working, ["disk".toList]⟩ := rfl
  have apart : ¬ dividerFiles.Same "bios" "disk" := by
    rintro ⟨place, hb, hd⟩
    rw [hbios] at hb
    rw [hdisk] at hd
    cases hb
    cases hd
  have hreadBios : dividerFiles.read "bios" = .ok divider := rfl
  have hreadDisk : dividerFiles.read "disk" = .ok #[9, 9, 9, 9, 9] := rfl
  let start := engine dividerConfig (.ofInput []) divider (.ofBytes "disk" #[9, 9, 9, 9, 9])
  have settles : start.Settles (start.steps 2) := ⟨2, rfl, by decide +kernel⟩
  have hfailure : (start.steps 2).failure = some ⟨.divisionByZero, 12, 0⟩ := by decide +kernel
  have hbuffer : (start.steps 2).session.machine.disk.buffer.bytes = #[0, 0, 0, 7, 9] := by
    decide +kernel
  obtain ⟨outcome, hends, hleft, hkept⟩ :=
    (boot_writes_disk_back dividerConfig dividerFiles (.ofInput []) apart).2.2 _ _ start _ hreadBios
      hreadDisk rfl settles
  have hwrite : ∃ after, dividerFiles.write "disk" #[0, 0, 0, 7, 9] = .ok after := ⟨_, rfl⟩
  obtain ⟨after, hafter⟩ := hwrite
  rw [← hbuffer] at hafter
  obtain ⟨hread, hreport⟩ := hleft.written after hafter
  rw [hbuffer] at hread
  exact ⟨apart, outcome, hends, hread, hkept, hreport _ (hleft.precedence _ hfailure)⟩

end Boot
end Microcomputer
