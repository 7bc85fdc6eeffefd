import Microcomputer.Proofs.History

/-!
# Copying from the disk

A copy lays the bytes of the disk down in RAM as they are, all of them or none. It is refused if one of the
two ranges does not lie where it should, and names the region of the first check that fails.
-/
namespace Microcomputer

/-- The memory of each region. -/
def Machine.memory (machine : Machine) : Region → Memory
  | .ram => machine.ram
  | .disk => machine.disk.buffer

/-- The bytes to be copied lie on the disk, and those to be replaced in RAM. -/
def Machine.HoldsCopy (machine : Machine) (source target length : Int) : Prop :=
  0 ≤ source ∧ 0 ≤ target ∧ 0 ≤ length ∧ source + length ≤ machine.disk.buffer.size ∧
    target + length ≤ machine.ram.size

/-- The region for which a copy is refused: that of the first of these checks that fails. -/
def Machine.refusesCopy? (machine : Machine) (source target length : Int) : Option Region :=
  if source < 0 ∨ length < 0 then some .disk
  else if target < 0 then some .ram
  else if machine.disk.buffer.size < source + length then some .disk
  else if machine.ram.size < target + length then some .ram
  else none

/-- Bytes of the disk have been laid down in RAM, and nothing else differs. -/
structure Machine.Copies (before after : Machine) (source target length : Nat) : Prop where
  bytes : ∀ i < length, ∃ byte, before.disk.buffer.bytes[source + i]? = some byte ∧
    after.ram.bytes[target + i]? = some byte
  others : ∀ index, index < target ∨ target + length ≤ index →
    after.ram.bytes[index]? = before.ram.bytes[index]?
  size : after.ram.size = before.ram.size
  region : after.ram.region = before.ram.region
  same : after = { before with ram := after.ram }

theorem Machine.refusesCopy?_eq_none_iff {machine : Machine} {source target length : Int} :
    machine.refusesCopy? source target length = none ↔ machine.HoldsCopy source target length := by
  unfold refusesCopy? HoldsCopy
  split_ifs <;> simp only [false_iff, true_iff] <;> omega

namespace Execution

variable {machine : Machine} {source target length : Int32}

theorem lt_zero_iff {number : Int32} : number < 0 ↔ number.toInt < 0 :=
  Int32.lt_iff_toInt_lt

/-- What is read from the disk, if there are that many bytes. -/
theorem load_window (hsource : 0 ≤ source.toInt) (hlength : 0 ≤ length.toInt)
    (hdisk : source.toInt + length.toInt ≤ machine.disk.buffer.size) :
    machine.disk.buffer.load source.toInt length.toInt.toNat =
        .ok (machine.disk.buffer.bytes.window source.toInt.toNat length.toInt.toNat) ∧
      (machine.disk.buffer.bytes.window source.toInt.toNat length.toInt.toNat).length =
        length.toInt.toNat := by
  have hinside : source.toInt.toNat + length.toInt.toNat ≤ machine.disk.buffer.size := by omega
  have hlocate := Memory.locate_eq_ok_iff.mpr ⟨(Int.toNat_of_nonneg hsource).symm, hinside⟩
  exact ⟨bind_eq_ok.mpr ⟨_, hlocate, rfl⟩, Bytes.length_window hinside⟩

theorem copySpan_of_holdsCopy (h : machine.HoldsCopy source.toInt target.toInt length.toInt) :
    copySpan machine source target length = .ok (target.toInt.toNat,
      machine.disk.buffer.bytes.window source.toInt.toNat length.toInt.toNat) := by
  obtain ⟨hsource, htarget, hlength, hdisk, hram⟩ := h
  obtain ⟨hload, hcount⟩ := load_window hsource hlength hdisk
  have hplace : machine.ram.locate target.toInt length.toInt.toNat = .ok target.toInt.toNat :=
    Memory.locate_eq_ok_iff.mpr ⟨by omega, by omega⟩
  rw [copySpan, if_neg (by rw [lt_zero_iff, lt_zero_iff]; omega), if_neg (by rw [lt_zero_iff]; omega)]
  refine bind_eq_ok.mpr ⟨_, hload, bind_eq_ok.mpr ⟨_, ?_, rfl⟩⟩
  rwa [hcount]

theorem copySpan_of_refusesCopy? {region : Region}
    (h : machine.refusesCopy? source.toInt target.toInt length.toInt = some region) :
    ∃ address, copySpan machine source target length =
      .error ((machine.memory region).outOfRange address) := by
  unfold Machine.refusesCopy? at h
  simp only [copySpan, lt_zero_iff]
  split_ifs at h ⊢ with hnegative htarget hdisk hram
  · obtain rfl := Option.some.inj h
    exact ⟨_, rfl⟩
  · obtain rfl := Option.some.inj h
    exact ⟨_, rfl⟩
  · obtain rfl := Option.some.inj h
    have hlocate := Memory.locate_eq_error_iff.mpr
      ⟨Or.inr (show (machine.disk.buffer.size : Int) < source.toInt + length.toInt.toNat by omega), rfl⟩
    exact ⟨source.toInt, bind_eq_error.mpr (Or.inl (bind_eq_error.mpr (Or.inl hlocate)))⟩
  · obtain rfl := Option.some.inj h
    have hwithin : source.toInt + length.toInt ≤ machine.disk.buffer.size := by omega
    obtain ⟨hload, hcount⟩ := load_window (by omega) (by omega) hwithin
    have hlocate := Memory.locate_eq_error_iff.mpr
      ⟨Or.inr (show (machine.ram.size : Int) < target.toInt + length.toInt.toNat by omega), rfl⟩
    refine ⟨target.toInt, bind_eq_error.mpr (Or.inr ⟨_, hload, bind_eq_error.mpr (Or.inl ?_)⟩)⟩
    rw [hcount]
    exact hlocate

end Execution

open Execution

section Perform

variable {condition : Condition} {source target length : Operand} {next depth : Nat} {session : Session}
  {s d n : Int32}

/-- Once the operands are read, only the copy is left. -/
theorem Statement.perform_diskLoad
    (hs : source.read session.machine.registers session.machine.ram = .ok s)
    (hd : target.read session.machine.registers session.machine.ram = .ok d)
    (hn : length.read session.machine.registers session.machine.ram = .ok n) :
    (⟨.diskLoad, condition, [source, target, length], rfl⟩ : Statement).perform next depth session =
      (copyFromDisk s d n >>= fun _ => pure (.goto next)) session :=
  (bind_ok (observe_ok hs)).trans ((bind_ok (observe_ok hd)).trans (bind_ok (observe_ok hn)))

/-- Bytes read from the disk and laid over RAM are copied. -/
theorem Machine.copies_put {machine : Machine} (h : machine.HoldsCopy s.toInt d.toInt n.toInt) :
    let data := machine.disk.buffer.bytes.window s.toInt.toNat n.toInt.toNat
    machine.Copies { machine with ram := machine.ram.put d.toInt.toNat data }
      s.toInt.toNat d.toInt.toNat n.toInt.toNat := by
  intro data
  obtain ⟨hsource, htarget, hlength, hdisk, hram⟩ := h
  have hcount : data.length = n.toInt.toNat := (load_window hsource hlength hdisk).2
  have hinside : d.toInt.toNat + data.length ≤ machine.ram.bytes.size := by
    rw [Memory.size] at hram
    omega
  refine ⟨fun i hi => ?_, fun index hindex => ?_, Memory.size_put .., rfl, rfl⟩
  · have hbyte : s.toInt.toNat + i < machine.disk.buffer.bytes.size := by
      rw [Memory.size] at hdisk
      omega
    refine ⟨_, Array.getElem?_eq_getElem hbyte, ?_⟩
    rw [Memory.put, Bytes.getElem?_overlay, if_pos (by omega), Nat.add_sub_cancel_left,
      Bytes.getElem?_window, if_pos hi, Array.getElem?_eq_getElem hbyte]
  · exact Bytes.getElem?_overlay_of_outside (by omega)

/-- A copy that is held takes place, and ends without a fault. -/
theorem Execution.copyFromDisk_of_holdsCopy (h : session.machine.HoldsCopy s.toInt d.toInt n.toInt) :
    ∃ after, copyFromDisk s d n session = .ok () after ∧
      session.machine.Copies after.machine s.toInt.toNat d.toInt.toNat n.toInt.toNat :=
  ⟨_, bind_ok (observe_ok (copySpan_of_holdsCopy h)), Machine.copies_put h⟩

theorem Execution.copyFromDisk_of_refusesCopy? {region : Region}
    (h : session.machine.refusesCopy? s.toInt d.toInt n.toInt = some region) :
    ∃ address, copyFromDisk s d n session =
      .error ((session.machine.memory region).outOfRange address) session := by
  obtain ⟨address, hspan⟩ := copySpan_of_refusesCopy? h
  exact ⟨address, bind_error (observe_error hspan)⟩

end Perform

/-- The regions of a machine bear their own names. -/
def Machine.NamesRegions (machine : Machine) : Prop :=
  ∀ region, (machine.memory region).region = region

theorem Machine.NamesRegions.of_shape {machine other : Machine} (h : machine.NamesRegions)
    (hshape : other.shape = machine.shape) : other.NamesRegions
  | .ram => (congrArg Shape.ramRegion hshape).trans (h .ram)
  | .disk => (congrArg Shape.diskRegion hshape).trans (h .disk)

/--
A statement that copies from the disk, whose operands read as `s`, `d` and `n`, completes if the bytes lie on
the disk and those to be replaced lie in RAM. It then replaces these with those, and changes nothing else.
Otherwise it fails for the region of the first check that fails, and changes nothing. In a run the regions bear
their own names throughout.
-/
theorem Statement.diskLoad_copies_all_or_nothing :
    (∀ (condition : Condition) (source target length : Operand) (next depth : Nat) (session : Session)
        (s d n : Int32),
      source.read session.machine.registers session.machine.ram = .ok s →
      target.read session.machine.registers session.machine.ram = .ok d →
      length.read session.machine.registers session.machine.ram = .ok n →
      let statement : Statement := ⟨.diskLoad, condition, [source, target, length], rfl⟩
      let outcome := statement.perform next depth session
      ((∃ transfer after, outcome = .ok transfer after) ↔
        session.machine.HoldsCopy s.toInt d.toInt n.toInt) ∧
      (∀ transfer after, outcome = .ok transfer after → transfer = .goto next ∧
        session.machine.Copies after.machine s.toInt.toNat d.toInt.toNat n.toInt.toNat) ∧
      (¬session.machine.HoldsCopy s.toInt d.toInt n.toInt →
        ∃ region address, session.machine.refusesCopy? s.toInt d.toInt n.toInt = some region ∧
          outcome = .error (.addressOutOfRange (session.machine.memory region).region address
            (session.machine.memory region).size) session)) ∧
    ∀ (config : Config) (path : String) (bytes : Bytes) (console : Console) (request : Request) (count : Nat),
      ∀ attempt ∈ request.attempts
        (.ofMachine (.ofConfig config (.ofBytes path bytes) console)) count, attempt.before.NamesRegions := by
  refine ⟨?performs, ?named⟩
  case performs =>
    intro condition source target length next depth session s d n hs hd hn statement outcome
    have hperform : outcome = (copyFromDisk s d n >>= fun _ => pure (.goto next)) session :=
      perform_diskLoad hs hd hn
    by_cases h : session.machine.HoldsCopy s.toInt d.toInt n.toInt
    · obtain ⟨final, hcopy, hcopies⟩ := copyFromDisk_of_holdsCopy h
      have hok : outcome = .ok (.goto next) final := hperform.trans (bind_ok hcopy)
      refine ⟨iff_of_true ⟨_, _, hok⟩ h, fun transfer after hafter => ?_, fun hnot => absurd h hnot⟩
      cases hok.symm.trans hafter
      exact ⟨rfl, hcopies⟩
    · cases hregion : session.machine.refusesCopy? s.toInt d.toInt n.toInt with
      | none => exact absurd (Machine.refusesCopy?_eq_none_iff.mp hregion) h
      | some region =>
        obtain ⟨address, hcopy⟩ := copyFromDisk_of_refusesCopy? hregion
        have herror := hperform.trans (bind_error hcopy)
        refine ⟨iff_of_false ?_ h, fun transfer after hafter => ?_, fun _ => ⟨region, address, rfl, herror⟩⟩
        · rintro ⟨transfer, after, hafter⟩
          cases herror.symm.trans hafter
        · cases herror.symm.trans hafter
  case named =>
    intro config path bytes console request count attempt hattempt
    have hstart : (Machine.ofConfig config (.ofBytes path bytes) console).NamesRegions
      | .ram => rfl
      | .disk => rfl
    exact hstart.of_shape (Request.before_shape hattempt)

/-- A machine whose RAM holds where to copy from, where to, and how much. -/
def loading (bytes : Bytes) : Machine where
  registers := .zeros 0
  ram := ⟨.ram, #[0, 0, 0, 2, 0, 0, 0, 1, 0, 0, 0, 6, 7]⟩
  disk := .ofBytes "" bytes
  console := .ofInput []
  maxDepth := 0

/-- Bytes that are no words are laid over the operands of their own copy. A disk that ends a byte too early is
refused. -/
theorem Statement.diskLoad_copies_all_or_nothing_overOperands (next depth : Nat) :
    let statement : Statement := ⟨.diskLoad, .always, [⟨.pointer, 0⟩, ⟨.pointer, 4⟩, ⟨.pointer, 8⟩], rfl⟩
    let whole := loading #[1, 1, 9, 255, 255, 255, 16, 3]
    let cut := loading #[1, 1, 9, 255, 255, 255, 16]
    (∃ transfer after, statement.perform next depth (.ofMachine whole) = .ok transfer after ∧
      whole.Copies after.machine 2 1 6) ∧
    (∃ address, statement.perform next depth (.ofMachine cut) =
      .error (.addressOutOfRange .disk address 7) (.ofMachine cut)) ∧
    ∃ attempt ∈ (Request.run #[0x11, 0]).attempts
      (.ofMachine (.ofConfig .standard (.ofBytes "" #[]) (.ofInput []))) 1, attempt.before.NamesRegions := by
  intro statement whole cut
  obtain ⟨hperforms, hnamed⟩ := diskLoad_copies_all_or_nothing
  have hs : (Operand.mk .pointer 0).read (loading #[]).registers (loading #[]).ram = .ok 2 := rfl
  have hd : (Operand.mk .pointer 4).read (loading #[]).registers (loading #[]).ram = .ok 1 := rfl
  have hn : (Operand.mk .pointer 8).read (loading #[]).registers (loading #[]).ram = .ok 6 := rfl
  have hloading (bytes : Bytes) := hperforms .always ⟨.pointer, 0⟩ ⟨.pointer, 4⟩ ⟨.pointer, 8⟩ next depth
    (.ofMachine (loading bytes)) 2 1 6 hs hd hn
  refine ⟨?_, ?_, ?_⟩
  · obtain ⟨hcompletes, hcopies, -⟩ := hloading #[1, 1, 9, 255, 255, 255, 16, 3]
    have hholds : whole.HoldsCopy 2 1 6 := ⟨by decide, by decide, by decide, by decide, by decide⟩
    obtain ⟨transfer, after, hok⟩ := hcompletes.mpr hholds
    exact ⟨transfer, after, hok, (hcopies transfer after hok).2⟩
  · obtain ⟨-, -, hfails⟩ := hloading #[1, 1, 9, 255, 255, 255, 16]
    have hrefuses : cut.refusesCopy? 2 1 6 = some .disk := by decide
    have hshort : ¬cut.HoldsCopy 2 1 6 := by
      rw [← Machine.refusesCopy?_eq_none_iff, hrefuses]
      exact nofun
    obtain ⟨region, address, hregion, herror⟩ := hfails hshort
    obtain rfl := Option.some.inj (hrefuses.symm.trans hregion)
    exact ⟨address, herror⟩
  · exact ⟨_, List.mem_singleton_self _, hnamed .standard "" #[] (.ofInput []) (.run #[0x11, 0]) 1 _
      (List.mem_singleton_self _)⟩

end Microcomputer
