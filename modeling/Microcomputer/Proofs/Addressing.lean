import Microcomputer.Proofs.Canonical
import Microcomputer.Proofs.Storage

/-!
# What an operand stands for

An operand stands for a register, or for the number at an address in RAM. Writing to it changes that register
or those four bytes and nothing else, so that another operand reads as before unless it is that register, has
its address from there, or stands for some of those bytes.
-/
namespace Microcomputer

namespace Registers

variable {registers : Registers} {index value : Int32} {slot : Nat}

/-- The value of a register, if there is one of this index. -/
def value? (registers : Registers) (index : Int32) : Option Int32 :=
  if 0 ≤ index.toInt then registers.values[index.toInt.toNat]? else none

theorem read_eq_ok : registers.read index = .ok value ↔ registers.value? index = some value := by
  unfold read value?
  constructor
  · intro h
    obtain ⟨slot, hlocate, hlast⟩ := bind_eq_ok.mp h
    obtain ⟨hindex, hslot⟩ := locate_eq_ok_iff.mp hlocate
    have hinside : slot < registers.values.size := hslot
    cases hlast
    rw [if_pos (by omega), hindex, Int.toNat_natCast]
    simp [hinside]
  · intro h
    split at h
    · next hnonneg =>
      obtain ⟨hinside, -⟩ := Array.getElem?_eq_some_iff.mp h
      have hlocate : registers.locate index = .ok index.toInt.toNat :=
        locate_eq_ok_iff.mpr ⟨by omega, hinside⟩
      refine bind_eq_ok.mpr ⟨_, hlocate, ?_⟩
      rw [Array.getD_eq_getD_getElem?, h]
      rfl
    · cases h

/-- A register other than the one that is set keeps its value. -/
theorem getElem?_put {other : Nat} (h : other ≠ slot) :
    (registers.put slot value).values[other]? = registers.values[other]? := by
  rw [put, Array.getElem?_setIfInBounds, if_neg h.symm]

@[simp]
theorem locate_put (registers : Registers) (slot : Nat) (value index : Int32) :
    (registers.put slot value).locate index = registers.locate index := by
  simp only [locate, size_put]

theorem read_put_of_ne (h : index.toInt ≠ slot) :
    (registers.put slot value).read index = registers.read index := by
  rw [read, read, locate_put]
  refine bind_congr_of_ok fun found hlocate => ?_
  have hother : found ≠ slot := by
    have hindex := (locate_eq_ok_iff.mp hlocate).1
    omega
  rw [Array.getD_eq_getD_getElem?, Array.getD_eq_getD_getElem?, getElem?_put hother]

end Registers

namespace Memory

variable {memory : Memory} {address value : Int32}

/-- The four bytes of a number at `address` lie in the memory. -/
def HoldsNumber (memory : Memory) (address : Int32) : Prop :=
  0 ≤ address.toInt ∧ address.toInt + Word.size ≤ memory.size

theorem locate_of_holdsNumber (h : memory.HoldsNumber address) :
    memory.locate address.toInt Word.size = .ok address.toInt.toNat := by
  unfold HoldsNumber at h
  exact locate_eq_ok_iff.mpr ⟨by omega, by omega⟩

theorem holdsNumber_of_locate {start : Nat} (h : memory.locate address.toInt Word.size = .ok start) :
    memory.HoldsNumber address := by
  obtain ⟨haddress, hinside⟩ := locate_eq_ok_iff.mp h
  unfold HoldsNumber
  omega

/-- A number can be placed if its bytes lie in the memory and it has a word. -/
theorem exists_placeNumber_iff : (∃ placed, memory.placeNumber address value = .ok placed) ↔
    memory.HoldsNumber address ∧ value.toInt.natAbs ≤ Word.maxMagnitude := by
  constructor
  · rintro ⟨⟨start, word⟩, h⟩
    obtain ⟨hlocate, hencode⟩ := placeNumber_eq_ok.mp h
    exact ⟨holdsNumber_of_locate hlocate, (Word.encode_eq_ok.mp hencode).1⟩
  · rintro ⟨hholds, hvalue⟩
    obtain ⟨word, hencode, -⟩ := Word.encode_of_le hvalue
    exact ⟨(_, word), placeNumber_eq_ok.mpr ⟨locate_of_holdsNumber hholds, hencode⟩⟩

theorem placeNumber_of_not_le (h : memory.HoldsNumber address)
    (hvalue : ¬value.toInt.natAbs ≤ Word.maxMagnitude) :
    memory.placeNumber address value = .error (.numberOutOfRange value) := by
  refine bind_eq_error.mpr (Or.inr ⟨_, locate_of_holdsNumber h, bind_eq_error.mpr (Or.inl ?_)⟩)
  exact Word.encode_of_not_le hvalue

end Memory

namespace Operand

/-- The address of the number in RAM that the operand stands for, if it stands for one. -/
def address? (operand : Operand) (registers : Registers) : Option Int32 :=
  match operand.mode with
  | .registerValue => registers.value? operand.payload
  | .pointer => some operand.payload
  | .register | .constant => none

/-- The value can be written to the operand. -/
def Accepts (operand : Operand) (registers : Registers) (ram : Memory) (value : Int32) : Prop :=
  match operand.mode with
  | .register => 0 ≤ operand.payload.toInt ∧ operand.payload.toInt < registers.size
  | .registerValue | .pointer => ∃ address, operand.address? registers = some address ∧
      ram.HoldsNumber address ∧ value.toInt.natAbs ≤ Word.maxMagnitude
  | .constant => False

/-- Nothing differs but what the operand stands for: one register, or four bytes of RAM. -/
inductive Rewrites (operand : Operand) (registers : Registers) (ram : Memory) : Registers → Memory → Prop
  | register {registers' : Registers} (slot : Nat) (mode : operand.mode = .register)
      (index : operand.payload.toInt = slot) (size : registers'.size = registers.size)
      (compare : registers'.compare = registers.compare)
      (others : ∀ other ≠ slot, registers'.values[other]? = registers.values[other]?) :
      Rewrites operand registers ram registers' ram
  | ram {ram' : Memory} (address : Int32) (resolved : operand.address? registers = some address)
      (region : ram'.region = ram.region) (size : ram'.size = ram.size)
      (others : ∀ index, ¬Covers address index → ram'.bytes[index]? = ram.bytes[index]?) :
      Rewrites operand registers ram registers ram'

/-- Writing to `target` may change what the operand reads as. -/
inductive Disturbs (target : Operand) (registers : Registers) : Operand → Prop
  /-- The operand is the register that is written. -/
  | register (mode : target.mode = .register) : Disturbs target registers ⟨.register, target.payload⟩
  /-- The operand has its address from that register. -/
  | address (mode : target.mode = .register) : Disturbs target registers ⟨.registerValue, target.payload⟩
  /-- The operand stands for some of the bytes that are written. -/
  | overlap {operand : Operand} {written other : Int32} (there : target.address? registers = some written)
      (here : operand.address? registers = some other) (meets : ¬Apart other written) :
      Disturbs target registers operand

variable {operand target : Operand} {registers registers' : Registers} {ram ram' : Memory}
  {address value : Int32}

theorem read_of_address? (h : operand.address? registers = some address) (ram : Memory) :
    operand.read registers ram = ram.readNumber address := by
  obtain ⟨mode, payload⟩ := operand
  cases mode with
  | registerValue => exact bind_of_ok (Registers.read_eq_ok.mpr h)
  | pointer =>
    obtain rfl := Option.some.inj h
    rfl
  | register | constant => cases h

/-- What stands for no number in RAM reads the same whatever RAM holds. -/
theorem read_of_address?_eq_none (h : operand.address? registers = none) :
    operand.read registers ram' = operand.read registers ram := by
  obtain ⟨mode, payload⟩ := operand
  cases mode with
  | registerValue =>
    refine bind_congr_of_ok fun address haddress => ?_
    have hsome := (Registers.read_eq_ok.mp haddress).symm.trans h
    cases hsome
  | pointer => cases h
  | register | constant => rfl

theorem write_of_address? (h : operand.address? registers = some address) (ram : Memory) (value : Int32) :
    operand.write registers ram value = do
      let (start, word) ← ram.placeNumber address value
      return (registers, ram.put start word.bytes) := by
  obtain ⟨mode, payload⟩ := operand
  have hplace : (⟨mode, payload⟩ : Operand).destination registers ram value = do
      let (start, word) ← ram.placeNumber address value
      return .ram start word := by
    cases mode with
    | registerValue => exact bind_of_ok (Registers.read_eq_ok.mpr h)
    | pointer =>
      obtain rfl := Option.some.inj h
      rfl
    | register | constant => cases h
  rw [write, hplace]
  cases ram.placeNumber address value <;> rfl

/-- What a write comes to, if it succeeds. -/
theorem write_eq_ok : operand.write registers ram value = .ok (registers', ram') ↔
    (∃ slot, operand.mode = .register ∧ registers.locate operand.payload = .ok slot ∧
      registers' = registers.put slot value ∧ ram' = ram) ∨
    ∃ address start word, operand.address? registers = some address ∧
      ram.placeNumber address value = .ok (start, word) ∧ registers' = registers ∧
      ram' = ram.put start word.bytes := by
  constructor
  · intro h
    obtain ⟨place, hplace, hwrite⟩ := bind_eq_ok.mp h
    obtain ⟨mode, payload⟩ := operand
    cases mode with
    | register =>
      obtain ⟨slot, hslot, hlast⟩ := bind_eq_ok.mp hplace
      cases hlast
      cases hwrite
      exact Or.inl ⟨slot, rfl, hslot, rfl, rfl⟩
    | registerValue =>
      obtain ⟨address, haddress, hrest⟩ := bind_eq_ok.mp hplace
      obtain ⟨⟨start, word⟩, hnumber, hlast⟩ := bind_eq_ok.mp hrest
      cases hlast
      cases hwrite
      exact Or.inr ⟨address, start, word, Registers.read_eq_ok.mp haddress, hnumber, rfl, rfl⟩
    | pointer =>
      obtain ⟨⟨start, word⟩, hnumber, hlast⟩ := bind_eq_ok.mp hplace
      cases hlast
      cases hwrite
      exact Or.inr ⟨payload, start, word, rfl, hnumber, rfl, rfl⟩
    | constant => cases hplace
  · rintro (⟨slot, hmode, hslot, rfl, rfl⟩ | ⟨address, start, word, haddress, hnumber, rfl, rfl⟩)
    · obtain ⟨mode, payload⟩ := operand
      obtain rfl : mode = .register := hmode
      exact bind_eq_ok.mpr ⟨_, bind_eq_ok.mpr ⟨slot, hslot, rfl⟩, rfl⟩
    · rw [write_of_address? haddress]
      exact bind_eq_ok.mpr ⟨_, hnumber, rfl⟩

theorem exists_write_iff :
    (∃ written, operand.write registers ram value = .ok written) ↔ operand.Accepts registers ram value := by
  constructor
  · rintro ⟨⟨registers', ram'⟩, h⟩
    rcases write_eq_ok.mp h with ⟨slot, hmode, hslot, -, -⟩ | ⟨address, start, word, haddress, hplaced, -, -⟩
    · have hindex := Registers.locate_eq_ok_iff.mp hslot
      simp only [Accepts, hmode]
      omega
    · have hnumber := Memory.exists_placeNumber_iff.mp ⟨_, hplaced⟩
      obtain ⟨mode, payload⟩ := operand
      cases mode with
      | registerValue | pointer => exact ⟨address, haddress, hnumber⟩
      | register | constant => cases haddress
  · intro h
    have hram (haccepts : ∃ address, operand.address? registers = some address ∧
        ram.HoldsNumber address ∧ value.toInt.natAbs ≤ Word.maxMagnitude) :
        ∃ written, operand.write registers ram value = .ok written := by
      obtain ⟨address, haddress, hnumber⟩ := haccepts
      obtain ⟨⟨start, word⟩, hplaced⟩ := Memory.exists_placeNumber_iff.mpr hnumber
      exact ⟨_, write_eq_ok.mpr (Or.inr ⟨address, start, word, haddress, hplaced, rfl, rfl⟩)⟩
    obtain ⟨mode, payload⟩ := operand
    cases mode with
    | register =>
      have hnonneg : 0 ≤ payload.toInt := h.1
      have hinside : payload.toInt < registers.size := h.2
      have hlocate : registers.locate payload = .ok payload.toInt.toNat :=
        Registers.locate_eq_ok_iff.mpr ⟨by omega, by omega⟩
      exact ⟨_, write_eq_ok.mpr (Or.inl ⟨_, rfl, hlocate, rfl, rfl⟩)⟩
    | registerValue | pointer => exact hram h
    | constant => exact h.elim

theorem accepts_iff_of_address? (h : operand.address? registers = some address) :
    operand.Accepts registers ram value ↔
      ram.HoldsNumber address ∧ value.toInt.natAbs ≤ Word.maxMagnitude := by
  obtain ⟨mode, payload⟩ := operand
  cases mode with
  | registerValue | pointer =>
    constructor
    · rintro ⟨other, hother, hnumber⟩
      obtain rfl := Option.some.inj (h.symm.trans hother)
      exact hnumber
    · exact fun hnumber => ⟨address, h, hnumber⟩
  | register | constant => cases h

/-- A number in RAM for which there is no word is refused as such. -/
theorem write_of_not_le (h : operand.address? registers = some address) (hholds : ram.HoldsNumber address)
    (hvalue : ¬value.toInt.natAbs ≤ Word.maxMagnitude) :
    operand.write registers ram value = .error (.numberOutOfRange value) := by
  rw [write_of_address? h]
  exact bind_eq_error.mpr (Or.inl (Memory.placeNumber_of_not_le hholds hvalue))

/-- A write changes what the operand stands for and nothing else. -/
theorem rewrites_of_write (h : operand.write registers ram value = .ok (registers', ram')) :
    operand.Rewrites registers ram registers' ram' := by
  rcases write_eq_ok.mp h with ⟨slot, hmode, hslot, rfl, rfl⟩ |
    ⟨address, start, word, haddress, hnumber, rfl, rfl⟩
  · exact .register slot hmode (Registers.locate_eq_ok_iff.mp hslot).1 (Registers.size_put ..)
      (Registers.compare_put ..) fun _ hother => Registers.getElem?_put hother
  · refine .ram address haddress (Memory.region_put ..) (Memory.size_put ..) fun index hcovers => ?_
    rw [Covers, Memory.toInt_of_placeNumber hnumber] at hcovers
    refine Bytes.getElem?_overlay_of_outside ?_
    rw [Word.length_bytes]
    omega

theorem Rewrites.compare_eq (h : operand.Rewrites registers ram registers' ram') :
    registers'.compare = registers.compare := by
  cases h with
  | register _ _ _ _ compare _ => exact compare
  | ram => rfl

/-- What a write does not disturb reads as it did before. -/
theorem read_of_write_elsewhere (h : target.write registers ram value = .ok (registers', ram'))
    (hapart : ¬target.Disturbs registers operand) :
    operand.read registers' ram' = operand.read registers ram := by
  rcases write_eq_ok.mp h with ⟨slot, hmode, hslot, rfl, rfl⟩ |
    ⟨written, start, word, hwritten, hnumber, rfl, rfl⟩
  case inl =>
    have hindex := (Registers.locate_eq_ok_iff.mp hslot).1
    obtain ⟨mode, payload⟩ := operand
    have hother (h : payload = target.payload → target.Disturbs registers ⟨mode, payload⟩) :
        payload.toInt ≠ slot := by
      intro hsame
      exact hapart (h (Int32.toInt_inj.mp (hsame.trans hindex.symm)))
    cases mode with
    | register => exact Registers.read_put_of_ne (hother fun hsame => hsame ▸ .register hmode)
    | registerValue =>
      have hread : (registers.put slot value).read payload = registers.read payload :=
        Registers.read_put_of_ne (hother fun hsame => hsame ▸ .address hmode)
      simp only [read, hread]
    | pointer | constant => rfl
  case inr =>
    cases haddress : operand.address? registers' with
    | none => exact read_of_address?_eq_none haddress
    | some address =>
      have hbytes : Apart address written := by
        by_contra hmeets
        exact hapart (.overlap hwritten haddress hmeets)
      rw [Apart, Memory.toInt_of_placeNumber hnumber] at hbytes
      rw [read_of_address? haddress, read_of_address? haddress]
      exact Memory.readNumber_put_of_apart hbytes

end Operand

open Execution in
/--
A value can be written to a register, or to four bytes of RAM if it has a word. A write that succeeds is read
back, changes one register or those bytes and nothing else, and leaves what every operand reads that it does
not disturb. One that fails changes nothing.
-/
theorem Operand.write_changes_one_place (target : Operand) (registers : Registers) (ram : Memory)
    (value : Int32) :
    ((∃ written, target.write registers ram value = .ok written) ↔ target.Accepts registers ram value) ∧
    (∀ registers' ram', target.write registers ram value = .ok (registers', ram') →
      target.read registers' ram' = .ok value ∧ target.Rewrites registers ram registers' ram' ∧
      registers'.compare = registers.compare ∧
      ∀ operand : Operand, ¬target.Disturbs registers operand →
        operand.read registers' ram' = operand.read registers ram) ∧
    ∀ (machine : Machine) (events : Array Event),
      store target value ⟨{ machine with registers := registers, ram := ram }, events⟩ =
        match target.write registers ram value with
        | .ok (registers', ram') =>
          .ok () ⟨{ machine with registers := registers', ram := ram' }, events⟩
        | .error fault => .error fault ⟨{ machine with registers := registers, ram := ram }, events⟩ := by
  refine ⟨exists_write_iff, fun registers' ram' h => ?_, fun machine events => ?_⟩
  · have hrewrites := rewrites_of_write h
    exact ⟨read_of_write h, hrewrites, hrewrites.compare_eq, fun _ => read_of_write_elsewhere h⟩
  · cases h : target.write registers ram value with
    | ok written => exact store_of_write h
    | error fault => exact store_of_error h

/-- A number is written through a register right before another one, which reads as it did. -/
theorem Operand.write_changes_one_place_neighbour :
    let registers : Registers := ⟨#[5, 9], 0⟩
    let ram : Memory := ⟨.ram, .replicate 16 7⟩
    let target : Operand := ⟨.registerValue, 0⟩
    let neighbour : Operand := ⟨.registerValue, 1⟩
    target.write registers ram (-300) = .ok (registers, ram.put 5 [8, 1, 2, 12]) ∧
      target.read registers (ram.put 5 [8, 1, 2, 12]) = .ok (-300) ∧ ¬target.Disturbs registers neighbour ∧
      neighbour.read registers (ram.put 5 [8, 1, 2, 12]) = neighbour.read registers ram := by
  intro registers ram target neighbour
  have hwrite : target.write registers ram (-300) = .ok (registers, ram.put 5 [8, 1, 2, 12]) := by decide
  have hapart : ¬target.Disturbs registers neighbour := by
    intro h
    generalize hoperand : neighbour = operand at h
    cases h with
    | register mode | address mode => cases mode
    | overlap there here meets =>
      subst hoperand
      obtain rfl := Option.some.inj there
      obtain rfl := Option.some.inj here
      exact meets (Or.inr (by decide))
  obtain ⟨-, hwritten, -⟩ := write_changes_one_place target registers ram (-300)
  obtain ⟨hread, -, -, hothers⟩ := hwritten _ _ hwrite
  exact ⟨hwrite, hread, hapart, hothers neighbour hapart⟩

end Microcomputer
