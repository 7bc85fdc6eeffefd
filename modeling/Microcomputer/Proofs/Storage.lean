import Microcomputer.Proofs.Codec
import Microcomputer.Proofs.Execution

/-!
# Reading what was written

A number that has been written is read back as long as none of its four bytes is written over, in RAM and on
the disk alike, and an operand reads what was written to it last.
-/
namespace Microcomputer

theorem Word.bytes_inj {word other : Word} : word.bytes = other.bytes ↔ word = other := by
  obtain ⟨_, _, _, _⟩ := word
  obtain ⟨_, _, _, _⟩ := other
  simp [Word.bytes]

/-- The spans of two numbers have no byte in common. -/
def Apart (offset other : Int32) : Prop :=
  offset.toInt + Word.size ≤ other.toInt ∨ other.toInt + Word.size ≤ offset.toInt

/-- The span of the number at `offset` has byte `index`. -/
def Covers (offset : Int32) (index : Nat) : Prop :=
  offset.toInt ≤ index ∧ (index : Int) < offset.toInt + Word.size

namespace Memory

variable {memory : Memory} {address value : Int32} {start place : Nat} {word : Word}

@[simp]
theorem locate_put (memory : Memory) (start : Nat) (data : List UInt8) (address : Int) (length : Nat) :
    (memory.put start data).locate address length = memory.locate address length := by
  simp only [locate, outOfRange, size_put, region_put]

theorem wordAt_put (h : start + Word.size ≤ memory.size) :
    (memory.put start word.bytes).wordAt start = word := by
  have hinside : start + Word.size ≤ (memory.put start word.bytes).size := by rwa [size_put]
  have hwindow : (memory.put start word.bytes).bytes.window start Word.size = word.bytes :=
    Bytes.window_overlay_self h
  exact Word.bytes_inj.mp ((window_wordAt hinside).symm.trans hwindow)

/-- A word is as before if it lies before or behind all bytes that were written. -/
theorem wordAt_put_of_apart {data : List UInt8}
    (h : start + Word.size ≤ place ∨ place + data.length ≤ start) :
    (memory.put place data).wordAt start = memory.wordAt start := by
  have hbyte (i : Nat) (hi : i < Word.size) :
      (memory.put place data).bytes[start + i]? = memory.bytes[start + i]? :=
    Bytes.getElem?_overlay_of_outside (by omega)
  have hfirst := hbyte 0 (by decide)
  have hsecond := hbyte 1 (by decide)
  have hthird := hbyte 2 (by decide)
  have hfourth := hbyte 3 (by decide)
  rw [Nat.add_zero] at hfirst
  simp only [wordAt, Array.getD_eq_getD_getElem?, hfirst, hsecond, hthird, hfourth]

theorem placeNumber_eq_ok : memory.placeNumber address value = .ok (start, word) ↔
    memory.locate address.toInt Word.size = .ok start ∧ Word.encode value = .ok word := by
  rw [placeNumber, bind_eq_ok]
  simp only [bind_eq_ok, pure, Except.pure, Except.ok.injEq, Prod.mk.injEq]
  constructor
  · rintro ⟨_, hlocate, _, hencode, rfl, rfl⟩
    exact ⟨hlocate, hencode⟩
  · rintro ⟨hlocate, hencode⟩
    exact ⟨start, hlocate, word, hencode, rfl, rfl⟩

/-- A number is placed at its address. -/
theorem toInt_of_placeNumber (h : memory.placeNumber address value = .ok (start, word)) :
    address.toInt = start :=
  (locate_eq_ok_iff.mp (placeNumber_eq_ok.mp h).1).1

/-- A number that has a word can be placed unless its span lies outside. -/
theorem locate_of_placeNumber {fault : Fault} (h : memory.placeNumber address value = .error fault)
    (hvalue : Word.encode value = .ok word) : memory.locate address.toInt Word.size = .error fault := by
  rcases bind_eq_error.mp h with h | ⟨start, -, h⟩
  · exact h
  · rw [hvalue] at h
    cases h

theorem readNumber_of_placeNumber (h : memory.placeNumber address value = .ok (start, word)) :
    (memory.put start word.bytes).readNumber address = .ok value := by
  obtain ⟨hlocate, hencode⟩ := placeNumber_eq_ok.mp h
  have hinside := (locate_eq_ok_iff.mp hlocate).2
  refine bind_eq_ok.mpr ⟨start, (memory.locate_put _ _ _ _).trans hlocate, ?_⟩
  rw [wordAt_put hinside, Word.decode_of_encode hencode]
  rfl

/-- A number is as before if it lies before or behind the number that was written. -/
theorem readNumber_put_of_apart
    (h : address.toInt + Word.size ≤ place ∨ (place + Word.size : Nat) ≤ address.toInt) :
    (memory.put place word.bytes).readNumber address = memory.readNumber address := by
  rw [readNumber, readNumber, locate_put]
  refine bind_congr_of_ok fun start hlocate => ?_
  have hstart := (locate_eq_ok_iff.mp hlocate).1
  rw [wordAt_put_of_apart]
  rw [Word.length_bytes]
  omega

end Memory

namespace Registers

theorem read_put {registers : Registers} {index value : Int32} {slot : Nat}
    (h : registers.locate index = .ok slot) : (registers.put slot value).read index = .ok value := by
  have hlocate : (registers.put slot value).locate index = .ok slot := by
    obtain ⟨hindex, hslot⟩ := locate_eq_ok_iff.mp h
    exact locate_eq_ok_iff.mpr ⟨hindex, by rwa [size_put]⟩
  have hslot : slot < registers.values.size := (locate_eq_ok_iff.mp h).2
  refine bind_eq_ok.mpr ⟨slot, hlocate, ?_⟩
  simp [put, hslot, pure, Except.pure]

end Registers

namespace Operand

variable {operand : Operand} {registers registers' : Registers} {ram ram' : Memory} {value : Int32}

/-- What was written to an operand is read from it. -/
theorem read_of_write (h : operand.write registers ram value = .ok (registers', ram')) :
    operand.read registers' ram' = .ok value := by
  obtain ⟨place, hplace, hwrite⟩ := bind_eq_ok.mp h
  obtain ⟨mode, payload⟩ := operand
  cases mode with
  | register =>
    obtain ⟨slot, hslot, hlast⟩ := bind_eq_ok.mp hplace
    cases hlast
    cases hwrite
    exact Registers.read_put hslot
  | registerValue =>
    obtain ⟨address, haddress, hrest⟩ := bind_eq_ok.mp hplace
    obtain ⟨⟨start, word⟩, hnumber, hlast⟩ := bind_eq_ok.mp hrest
    cases hlast
    cases hwrite
    exact bind_eq_ok.mpr ⟨address, haddress, Memory.readNumber_of_placeNumber hnumber⟩
  | pointer =>
    obtain ⟨⟨start, word⟩, hnumber, hlast⟩ := bind_eq_ok.mp hplace
    cases hlast
    cases hwrite
    exact Memory.readNumber_of_placeNumber hnumber
  | constant => cases hplace

/-- No value can be written to the operand. -/
def Unwritable (operand : Operand) (registers : Registers) (ram : Memory) (fault : Fault) : Prop :=
  ∀ value, operand.write registers ram value = .error fault

theorem write_of_destination_error {fault : Fault}
    (h : operand.destination registers ram value = .error fault) :
    operand.write registers ram value = .error fault :=
  bind_eq_error.mpr (Or.inl h)

theorem destination_of_write_error {fault : Fault} (h : operand.write registers ram value = .error fault) :
    operand.destination registers ram value = .error fault := by
  rcases bind_eq_error.mp h with h | ⟨place, -, h⟩
  · exact h
  · cases place <;> cases h

end Operand

/-- The fault of a place that is not there, or that cannot be written. -/
def Fault.isOfPlace : Fault → Bool
  | .constantWrite | .registerOutOfRange .. | .addressOutOfRange .. => true
  | _ => false

section Unwritable

variable {registers : Registers} {ram : Memory} {value address index : Int32} {word : Word} {fault : Fault}

theorem Registers.isOfPlace_of_locate (h : registers.locate index = .error fault) :
    fault.isOfPlace = true := by
  unfold Registers.locate at h
  split at h
  · cases h
  · cases h
    rfl

theorem Memory.isOfPlace_of_locate {start : Int} {length : Nat}
    (h : ram.locate start length = .error fault) : fault.isOfPlace = true := by
  obtain ⟨-, rfl⟩ := locate_eq_error_iff.mp h
  rfl

/-- If a number that has a word cannot be placed somewhere, no number can. -/
theorem Memory.placeNumber_error_of_encode (hvalue : Word.encode value = .ok word)
    (h : ram.placeNumber address value = .error fault) :
    (∀ other, ram.placeNumber address other = .error fault) ∧ fault.isOfPlace = true := by
  have hlocate := locate_of_placeNumber h hvalue
  exact ⟨fun other => bind_eq_error.mpr (Or.inl hlocate), isOfPlace_of_locate hlocate⟩

/-- If a value that has a word cannot be written to an operand, it is for the place and not for the value. -/
theorem Operand.unwritable_of_error {operand : Operand} (hvalue : Word.encode value = .ok word)
    (h : operand.write registers ram value = .error fault) :
    operand.Unwritable registers ram fault ∧ fault.isOfPlace = true := by
  have hplace := destination_of_write_error h
  obtain ⟨mode, payload⟩ := operand
  cases mode with
  | register =>
    rcases bind_eq_error.mp hplace with hlocate | ⟨slot, -, hlast⟩
    · refine ⟨fun other => ?_, Registers.isOfPlace_of_locate hlocate⟩
      exact write_of_destination_error (bind_eq_error.mpr (Or.inl hlocate))
    · cases hlast
  | registerValue =>
    rcases bind_eq_error.mp hplace with hread | ⟨address, haddress, hrest⟩
    · rcases bind_eq_error.mp hread with hlocate | ⟨slot, -, hlast⟩
      · refine ⟨fun other => ?_, Registers.isOfPlace_of_locate hlocate⟩
        exact write_of_destination_error (bind_eq_error.mpr (Or.inl hread))
      · cases hlast
    · rcases bind_eq_error.mp hrest with hnumber | ⟨place, -, hlast⟩
      · obtain ⟨hall, hkind⟩ := Memory.placeNumber_error_of_encode hvalue hnumber
        refine ⟨fun other => write_of_destination_error ?_, hkind⟩
        exact bind_eq_error.mpr (Or.inr ⟨address, haddress, bind_eq_error.mpr (Or.inl (hall other))⟩)
      · cases hlast
  | pointer =>
    rcases bind_eq_error.mp hplace with hnumber | ⟨place, -, hlast⟩
    · obtain ⟨hall, hkind⟩ := Memory.placeNumber_error_of_encode hvalue hnumber
      exact ⟨fun other => write_of_destination_error (bind_eq_error.mpr (Or.inl (hall other))), hkind⟩
    · cases hlast
  | constant =>
    cases hplace
    exact ⟨fun other => rfl, rfl⟩

end Unwritable

namespace Execution

variable {operand : Operand} {value : Int32} {session : Session}

/-- Storing a value is writing it to the operand, and changes nothing but registers and RAM. -/
theorem store_of_write {registers : Registers} {ram : Memory}
    (h : operand.write session.machine.registers session.machine.ram value = .ok (registers, ram)) :
    store operand value session = .ok ()
      { session with machine := { session.machine with registers := registers, ram := ram } } := by
  obtain ⟨place, hplace, hwrite⟩ := bind_eq_ok.mp h
  refine (bind_ok (observe_ok hplace)).trans ?_
  cases place <;> cases hwrite <;> rfl

theorem store_of_error {fault : Fault}
    (h : operand.write session.machine.registers session.machine.ram value = .error fault) :
    store operand value session = .error fault session :=
  bind_error (observe_error (Operand.destination_of_write_error h))

end Execution
end Microcomputer
