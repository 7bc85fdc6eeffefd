import Microcomputer.Proofs.Codec
import Microcomputer.Proofs.Recursion

/-!
# Widened machines

A machine is widened by registers, bytes of memory and levels of nesting that it did not have. Whatever
does not fail for want of them goes the same way on the widened machine and leaves what was added alone.
-/
namespace Microcomputer

/-- Faults of a machine that is too small. -/
def Fault.isCapacity : Fault → Bool
  | .registerOutOfRange .. | .addressOutOfRange .. | .depthExceeded _ => true
  | _ => false

/-- What a larger machine has on top of a smaller one, and where its own disk is kept. -/
structure Spare where
  registers : Array Int32
  ram : Bytes
  disk : Bytes
  diskPath : String
  depth : Nat

def Registers.widen (extra : Array Int32) (registers : Registers) : Registers :=
  { registers with values := registers.values ++ extra }

def Memory.widen (extra : Bytes) (memory : Memory) : Memory :=
  { memory with bytes := memory.bytes ++ extra }

def Machine.widen (spare : Spare) (machine : Machine) : Machine where
  registers := machine.registers.widen spare.registers
  ram := machine.ram.widen spare.ram
  disk := ⟨spare.diskPath, machine.disk.buffer.widen spare.disk⟩
  console := machine.console
  maxDepth := machine.maxDepth + spare.depth

def Session.widen (spare : Spare) (session : Session) : Session :=
  { session with machine := session.machine.widen spare }

def Engine.widen (spare : Spare) (engine : Engine) : Engine :=
  { engine with session := engine.session.widen spare }

/-- The answer of a smaller machine is that of a larger one, unless it is a fault of capacity. -/
def Stands {α : Type} (small large : Except Fault α) : Prop :=
  (∀ fault, small = .error fault → fault.isCapacity = false) → large = small

section Stands

variable {α β : Type}

theorem stands_refl {answer : Except Fault α} : Stands answer answer :=
  fun _ => rfl

theorem stands_of_capacity {fault : Fault} {large : Except Fault α} (h : fault.isCapacity = true) :
    Stands (.error fault) large := by
  intro hfree
  rw [hfree fault rfl] at h
  cases h

theorem Stands.bind {small large : Except Fault β} {next next' : β → Except Fault α}
    (h : Stands small large) (hnext : ∀ value, small = .ok value → Stands (next value) (next' value)) :
    Stands (small >>= next) (large >>= next') := by
  cases small with
  | error fault =>
    intro hfree
    have hlarge : large = .error fault := h fun other hother => hfree other (congrArg (· >>= next) hother)
    rw [hlarge]
    rfl
  | ok value =>
    rw [h fun _ hf => nomatch hf]
    exact hnext value rfl

theorem stands_ite {p p' : Prop} [Decidable p] [Decidable p'] {yes yes' no no' : Except Fault α}
    (hp : p' ↔ p) (hyes : Stands yes yes') (hno : Stands no no') :
    Stands (if p then yes else no) (if p' then yes' else no') := by
  by_cases h : p
  · rw [if_pos h, if_pos (hp.mpr h)]
    exact hyes
  · rw [if_neg h, if_neg (mt hp.mp h)]
    exact hno

end Stands

namespace Registers

variable (registers : Registers) (extra : Array Int32)

theorem size_widen : (registers.widen extra).size = registers.size + extra.size := by
  simp [widen, size]

theorem stands_locate (index : Int32) :
    Stands (registers.locate index) ((registers.widen extra).locate index) := by
  unfold locate
  rw [size_widen]
  by_cases h : 0 ≤ index.toInt ∧ index.toInt < registers.size
  · rw [if_pos h, if_pos (by omega)]
    exact stands_refl
  · rw [if_neg h]
    exact stands_of_capacity rfl

theorem stands_read (index : Int32) :
    Stands (registers.read index) ((registers.widen extra).read index) := by
  refine (registers.stands_locate extra index).bind fun slot hslot => ?_
  have hin : slot < registers.values.size := (locate_eq_ok_iff.mp hslot).2
  have hsame : (registers.widen extra).values.getD slot 0 = registers.values.getD slot 0 := by
    rw [widen, Array.getD_eq_getD_getElem?, Array.getD_eq_getD_getElem?, Array.getElem?_append_left hin]
  rw [hsame]
  exact stands_refl

variable {registers extra}

theorem put_widen {slot : Nat} (h : slot < registers.size) (value : Int32) :
    (registers.widen extra).put slot value = (registers.put slot value).widen extra := by
  have hin : slot < registers.values.size := h
  simp only [put, widen, Array.setIfInBounds_append_left hin]

end Registers

namespace Memory

variable (memory : Memory) (extra : Bytes)

theorem size_widen : (memory.widen extra).size = memory.size + extra.size := by
  simp [widen, size]

theorem stands_locate (address : Int) (length : Nat) :
    Stands (memory.locate address length) ((memory.widen extra).locate address length) := by
  unfold locate
  rw [size_widen]
  by_cases h : 0 ≤ address ∧ address + length ≤ memory.size
  · rw [if_pos h, if_pos (by omega)]
    exact stands_refl
  · rw [if_neg h]
    exact stands_of_capacity rfl

theorem stands_load (address : Int) (length : Nat) :
    Stands (memory.load address length) ((memory.widen extra).load address length) := by
  refine (memory.stands_locate extra address length).bind fun start hstart => ?_
  have hin : start + length ≤ memory.bytes.size := (locate_eq_ok_iff.mp hstart).2
  rw [widen, Bytes.window_append_left hin]
  exact stands_refl

theorem wordAt_widen {start : Nat} (h : start + Word.size ≤ memory.size) :
    (memory.widen extra).wordAt start = memory.wordAt start := by
  have hbyte (i : Nat) (hi : i < Word.size) :
      (memory.widen extra).bytes.getD (start + i) 0 = memory.bytes.getD (start + i) 0 := by
    have hin : start + i < memory.bytes.size := Nat.lt_of_lt_of_le (Nat.add_lt_add_left hi start) h
    rw [widen, Array.getD_eq_getD_getElem?, Array.getD_eq_getD_getElem?, Array.getElem?_append_left hin]
  have h0 := hbyte 0 (by decide)
  have h1 := hbyte 1 (by decide)
  have h2 := hbyte 2 (by decide)
  have h3 := hbyte 3 (by decide)
  rw [Nat.add_zero] at h0
  rw [wordAt, wordAt, h0, h1, h2, h3]

theorem stands_readNumber (address : Int32) :
    Stands (memory.readNumber address) ((memory.widen extra).readNumber address) := by
  refine (memory.stands_locate extra address.toInt Word.size).bind fun start hstart => ?_
  rw [memory.wordAt_widen extra (locate_eq_ok_iff.mp hstart).2]
  exact stands_refl

theorem stands_placeNumber (address value : Int32) :
    Stands (memory.placeNumber address value) ((memory.widen extra).placeNumber address value) :=
  (memory.stands_locate extra address.toInt Word.size).bind fun _ _ => stands_refl

variable {memory extra}

theorem put_widen {start : Nat} {data : List UInt8} (h : start + data.length ≤ memory.size) :
    (memory.widen extra).put start data = (memory.put start data).widen extra := by
  simp only [put, widen, Bytes.overlay_append_left h]

theorem placeNumber_inside {address value : Int32} {start : Nat} {word : Word}
    (h : memory.placeNumber address value = .ok (start, word)) : start + Word.size ≤ memory.size := by
  obtain ⟨_, hstart, hword⟩ := bind_eq_ok.mp h
  obtain ⟨_, _, hpair⟩ := bind_eq_ok.mp hword
  obtain ⟨rfl, -⟩ := Prod.mk.inj (Except.ok.inj hpair)
  exact (locate_eq_ok_iff.mp hstart).2

end Memory

/-- The place exists in these registers or in this RAM. -/
def Destination.Inside (registers : Registers) (ram : Memory) : Destination → Prop
  | .register slot => slot < registers.size
  | .ram start _ => start + Word.size ≤ ram.size

namespace Operand

variable (operand : Operand) (registers : Registers) (ram : Memory)

theorem destination_inside {value : Int32} {place : Destination}
    (h : operand.destination registers ram value = .ok place) : place.Inside registers ram := by
  obtain ⟨mode, payload⟩ := operand
  cases mode with
  | register =>
    obtain ⟨slot, hslot, hplace⟩ := bind_eq_ok.mp h
    obtain rfl := Except.ok.inj hplace
    exact (Registers.locate_eq_ok_iff.mp hslot).2
  | registerValue =>
    obtain ⟨address, _, hput⟩ := bind_eq_ok.mp h
    obtain ⟨⟨start, word⟩, hword, hplace⟩ := bind_eq_ok.mp hput
    obtain rfl := Except.ok.inj hplace
    exact Memory.placeNumber_inside hword
  | pointer =>
    obtain ⟨⟨start, word⟩, hword, hplace⟩ := bind_eq_ok.mp h
    obtain rfl := Except.ok.inj hplace
    exact Memory.placeNumber_inside hword
  | constant => cases h

variable (spare : Array Int32) (extra : Bytes)

theorem stands_read :
    Stands (operand.read registers ram) (operand.read (registers.widen spare) (ram.widen extra)) := by
  obtain ⟨mode, payload⟩ := operand
  cases mode with
  | register => exact registers.stands_read spare payload
  | registerValue =>
    exact (registers.stands_read spare payload).bind fun address _ => ram.stands_readNumber extra address
  | pointer => exact ram.stands_readNumber extra payload
  | constant => exact stands_refl

theorem stands_destination (value : Int32) :
    Stands (operand.destination registers ram value)
      (operand.destination (registers.widen spare) (ram.widen extra) value) := by
  obtain ⟨mode, payload⟩ := operand
  cases mode with
  | register => exact (registers.stands_locate spare payload).bind fun _ _ => stands_refl
  | registerValue =>
    refine (registers.stands_read spare payload).bind fun address _ => ?_
    exact (ram.stands_placeNumber extra address value).bind fun _ _ => stands_refl
  | pointer => exact (ram.stands_placeNumber extra payload value).bind fun _ _ => stands_refl
  | constant => exact stands_refl

end Operand

namespace Execution

variable {α β : Type} {spare : Spare} {session : Session}

theorem stands_copySpan (machine : Machine) (source destination length : Int32) :
    Stands (copySpan machine source destination length)
      (copySpan (machine.widen spare) source destination length) := by
  unfold copySpan
  by_cases hsource : source < 0 ∨ length < 0
  · rw [if_pos hsource]
    exact stands_of_capacity rfl
  rw [if_neg hsource, if_neg hsource]
  by_cases hdestination : destination < 0
  · rw [if_pos hdestination]
    exact stands_of_capacity rfl
  rw [if_neg hdestination, if_neg hdestination]
  refine (machine.disk.buffer.stands_load spare.disk _ _).bind fun data _ => ?_
  exact (machine.ram.stands_locate spare.ram _ _).bind fun _ _ => stands_refl

theorem copySpan_inside {machine : Machine} {source destination length : Int32} {start : Nat}
    {data : List UInt8} (h : copySpan machine source destination length = .ok (start, data)) :
    start + data.length ≤ machine.ram.size := by
  unfold copySpan at h
  split at h
  · cases h
  split at h
  · cases h
  obtain ⟨_, _, hstart⟩ := bind_eq_ok.mp h
  obtain ⟨_, hlocate, hpair⟩ := bind_eq_ok.mp hstart
  obtain ⟨rfl, rfl⟩ := Prod.mk.inj (Except.ok.inj hpair)
  exact (Memory.locate_eq_ok_iff.mp hlocate).2

theorem stands_nestedStart (machine : Machine) (offset length : Int32) (depth : Nat) :
    Stands (nestedStart machine offset length depth)
      (nestedStart (machine.widen spare) offset length depth) := by
  unfold nestedStart
  by_cases hdepth : machine.maxDepth ≤ depth
  · rw [if_pos hdepth]
    exact stands_of_capacity rfl
  have hdepth' : ¬ (machine.widen spare).maxDepth ≤ depth := by
    show ¬ machine.maxDepth + spare.depth ≤ depth
    omega
  rw [if_neg hdepth, if_neg hdepth']
  by_cases hoffset : offset < 0
  · rw [if_pos hoffset]
    exact stands_of_capacity rfl
  rw [if_neg hoffset, if_neg hoffset]
  by_cases hlength : length < 0
  · rw [if_pos hlength]
    exact stands_of_capacity rfl
  rw [if_neg hlength, if_neg hlength]
  exact machine.ram.stands_locate spare.ram _ _

/-- From the widened session the execution does what it does from this one, unless here it lacks capacity. -/
def Scales (spare : Spare) (execution : Execution α) (session : Session) : Prop :=
  Yields execution
    (fun value after => execution (session.widen spare) = .ok value (after.widen spare))
    (fun fault after => fault.isCapacity = false →
      execution (session.widen spare) = .error fault (after.widen spare)) session

theorem scales_pure {value : α} : Scales spare (pure value : Execution α) session :=
  rfl

theorem scales_throw {fault : Fault} : Scales spare (throw fault : Execution α) session :=
  fun _ => rfl

theorem scales_note {event : Event} : Scales spare (note event) session :=
  rfl

theorem scales_update {change : Machine → Machine}
    (h : change (session.machine.widen spare) = (change session.machine).widen spare) :
    Scales spare (update change) session := by
  show update change (session.widen spare) = .ok () _
  have hmachine : (session.widen spare).machine = session.machine.widen spare := rfl
  rw [update, hmachine, h]
  rfl

theorem scales_observe {look : Machine → Except Fault α}
    (h : Stands (look session.machine) (look (session.machine.widen spare))) :
    Scales spare (observe look) session := by
  refine yields_observe.mpr ⟨fun value hvalue => ?_, fun fault hfault hfree => ?_⟩
  · have hlarge := h fun fault hfault => nomatch hvalue.symm.trans hfault
    exact observe_ok (hlarge.trans hvalue)
  · have hlarge := h fun other hother => by
      obtain rfl := Except.error.inj (hfault.symm.trans hother)
      exact hfree
    exact observe_error (hlarge.trans hfault)

theorem Scales.bind {execution : Execution β} {next : β → Execution α}
    (h : Scales spare execution session)
    (hnext : ∀ value after, execution session = .ok value after → Scales spare (next value) after) :
    Scales spare (execution >>= next) session := by
  unfold Scales Yields
  cases hx : execution session with
  | error fault after =>
    rw [bind_error hx]
    exact fun hfree => bind_error (h.of_error hx hfree)
  | ok value after =>
    rw [bind_ok hx]
    have hlarge : (execution >>= next) (session.widen spare) = next value (after.widen spare) :=
      bind_ok (h.of_ok hx)
    rw [hlarge]
    exact hnext value after hx

/-- What is observed may be used as an answer of the machine that it was observed on. -/
theorem scales_observe_bind {look : Machine → Except Fault β} {next : β → Execution α}
    (h : Stands (look session.machine) (look (session.machine.widen spare)))
    (hnext : ∀ value, look session.machine = .ok value → Scales spare (next value) session) :
    Scales spare (observe look >>= next) session := by
  refine (scales_observe h).bind fun value after hx => ?_
  cases hlook : look session.machine with
  | error fault =>
    rw [observe_error hlook] at hx
    cases hx
  | ok other =>
    rw [observe_ok hlook] at hx
    obtain ⟨rfl, rfl⟩ := EStateM.Result.ok.inj hx
    exact hnext other hlook

theorem scales_load {operand : Operand} : Scales spare (load operand) session :=
  scales_observe (operand.stands_read _ _ spare.registers spare.ram)

theorem scales_store {operand : Operand} {value : Int32} : Scales spare (store operand value) session := by
  refine scales_observe_bind (operand.stands_destination _ _ spare.registers spare.ram value)
    fun place hplace => ?_
  have hinside := operand.destination_inside _ _ hplace
  cases place with
  | register slot =>
    refine scales_update ?_
    simp only [Machine.widen, Registers.put_widen (show slot < session.machine.registers.size from hinside)]
  | ram start word =>
    refine scales_update ?_
    simp only [Machine.widen, Memory.put_widen (show start + word.bytes.length ≤ _ from hinside)]

theorem scales_receive : Scales spare receive session := by
  refine scales_observe_bind stands_refl fun input _ => ?_
  cases input with
  | cons byte rest =>
    refine Scales.bind (scales_update ?_) fun _ _ _ => scales_pure
    rfl
  | nil => exact (scales_observe stands_refl).bind fun _ _ _ => scales_note.bind fun _ _ _ => scales_pure

theorem scales_send {value : Int32} : Scales spare (send value) session :=
  (scales_observe stands_refl).bind fun _ _ _ => scales_update rfl

theorem scales_writeDisk {offset value : Int32} : Scales spare (writeDisk offset value) session := by
  refine scales_observe_bind (session.machine.disk.buffer.stands_placeNumber spare.disk offset value)
    fun place hplace => scales_update ?_
  simp only [Machine.widen, Memory.put_widen
    (show place.1 + place.2.bytes.length ≤ _ from Memory.placeNumber_inside hplace)]

theorem scales_copyFromDisk {source target length : Int32} :
    Scales spare (copyFromDisk source target length) session := by
  refine scales_observe_bind (stands_copySpan session.machine source target length) fun span hspan => ?_
  refine (scales_update ?_).bind fun _ _ _ => scales_note
  simp only [Machine.widen, Memory.put_widen (copySpan_inside hspan)]

theorem scales_enter {offset length : Int32} {depth resume : Nat} :
    Scales spare (enter offset length depth resume) session := by
  unfold enter
  by_cases hl : length = 0
  · rw [if_pos hl]
    exact scales_pure
  · rw [if_neg hl]
    exact (scales_observe (stands_nestedStart session.machine offset length depth)).bind
      fun _ _ _ => scales_note.bind fun _ _ _ => scales_pure

end Execution

end Microcomputer
