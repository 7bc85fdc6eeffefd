import Mathlib.Data.Int.ModEq
import Microcomputer.Proofs.Addressing

/-!
# What arithmetic comes to

The result of an operation is congruent to the exact one modulo 2^32, and of the numbers that are it is the
only one of 32 bits. A register receives it as it is; RAM receives it if it has a word, and otherwise the
statement fails.
-/
namespace Microcomputer

/-- The number is the one of 32 bits that is congruent to the integer. -/
def Wraps (exact : Int) (result : Int32) : Prop :=
  ∀ number : Int32, number.toInt ≡ exact [ZMOD 2 ^ 32] ↔ number = result

/-- A division with the quotient rounded toward zero, and what remains of it. -/
structure Truncates (a b quotient remainder : Int) : Prop where
  whole : a = quotient * b + remainder
  small : remainder.natAbs < b.natAbs
  sign : remainder = 0 ∨ remainder.sign = a.sign

/-- The exact result of the operation, if it has one; bitwise operations are not on integers. -/
def Arithmetic.exact? (a b : Int) : Arithmetic → Option Int
  | add => some (a + b)
  | subtract => some (a - b)
  | multiply => some (a * b)
  | divide => if b = 0 then none else some (a.tdiv b)
  | remainder => if b = 0 then none else some (a.tmod b)
  | bitAnd | bitOr | bitXor => none

section Integers

variable {a b : Int32}

theorem bmod_toInt (number : Int32) : number.toInt.bmod (2 ^ 32) = number.toInt := by
  have hlow := number.le_toInt
  have hhigh := number.toInt_lt
  exact Int.bmod_eq_of_le (by omega) (by omega)

theorem wraps_of_toInt {exact : Int} {result : Int32} (h : result.toInt = exact.bmod (2 ^ 32)) :
    Wraps exact result := by
  intro number
  constructor
  · intro hcongruent
    have hsame : number.toInt.bmod (2 ^ 32) = exact.bmod (2 ^ 32) := by
      rw [← Int.emod_bmod number.toInt, ← Int.emod_bmod exact]
      exact congrArg (Int.bmod · _) hcongruent
    rw [bmod_toInt, ← h] at hsame
    exact Int32.toInt_inj.mp hsame
  · rintro rfl
    rw [h]
    exact Int.bmod_emod

theorem truncates_tdiv {a b : Int} (hb : b ≠ 0) : Truncates a b (a.tdiv b) (a.tmod b) where
  whole := (Int.tdiv_mul_add_tmod a b).symm
  small := by
    rw [Int.natAbs_tmod]
    exact Nat.mod_lt _ (Int.natAbs_pos.mpr hb)
  sign := by
    by_cases hdvd : b ∣ a
    · exact Or.inl (Int.tmod_eq_zero_of_dvd hdvd)
    · exact Or.inr (by rw [Int.sign_tmod, if_neg hdvd])

theorem mod_div_add (a b : Int32) : a / b * b + a % b = a := by
  apply Int32.toInt_inj.mp
  calc (a / b * b + a % b).toInt
    _ = (((a.toInt.tdiv b.toInt).bmod (2 ^ 32) * b.toInt).bmod (2 ^ 32) + a.toInt.tmod b.toInt).bmod
        (2 ^ 32) := by rw [Int32.toInt_add, Int32.toInt_mul, Int32.toInt_div, Int32.toInt_mod]
    _ = (a.toInt.tdiv b.toInt * b.toInt + a.toInt.tmod b.toInt).bmod (2 ^ 32) := by
      rw [Int.bmod_mul_bmod, Int.bmod_add_bmod]
    _ = a.toInt := by rw [Int.tdiv_mul_add_tmod, bmod_toInt]

/-- An operation with an exact result succeeds, and wraps it. -/
theorem Arithmetic.apply_wraps {operation : Arithmetic} {exact : Int}
    (h : operation.exact? a.toInt b.toInt = some exact) :
    ∃ result, operation.apply a b = .ok result ∧ Wraps exact result := by
  have hdivisor (hzero : b.toInt ≠ 0) : b ≠ 0 := fun hb => hzero (by rw [hb]; rfl)
  cases operation with
  | add =>
    obtain rfl := Option.some.inj h
    exact ⟨a + b, rfl, wraps_of_toInt (Int32.toInt_add a b)⟩
  | subtract =>
    obtain rfl := Option.some.inj h
    exact ⟨a - b, rfl, wraps_of_toInt (Int32.toInt_sub a b)⟩
  | multiply =>
    obtain rfl := Option.some.inj h
    exact ⟨a * b, rfl, wraps_of_toInt (Int32.toInt_mul a b)⟩
  | divide =>
    obtain ⟨hzero, hexact⟩ := Option.ite_none_left_eq_some.mp h
    obtain rfl := Option.some.inj hexact
    exact ⟨a / b, if_neg (hdivisor hzero), wraps_of_toInt (Int32.toInt_div a b)⟩
  | remainder =>
    obtain ⟨hzero, hexact⟩ := Option.ite_none_left_eq_some.mp h
    obtain rfl := Option.some.inj hexact
    refine ⟨a % b, if_neg (hdivisor hzero), wraps_of_toInt ?_⟩
    rw [← Int32.toInt_mod, bmod_toInt]
  | bitAnd | bitOr | bitXor => cases h

/-- Quotient and remainder of a division make up the dividend again, also where the quotient has wrapped. -/
theorem Arithmetic.apply_divide_remainder (a : Int32) (hb : b ≠ 0) :
    ∃ quotient remainder, Arithmetic.divide.apply a b = .ok quotient ∧
      Arithmetic.remainder.apply a b = .ok remainder ∧
      Truncates a.toInt b.toInt (a.toInt.tdiv b.toInt) remainder.toInt ∧ quotient * b + remainder = a := by
  have hzero : b.toInt ≠ 0 := fun h => hb (Int32.toInt_inj.mp h)
  refine ⟨a / b, a % b, if_neg hb, if_neg hb, ?_, mod_div_add a b⟩
  rw [Int32.toInt_mod]
  exact truncates_tdiv hzero

theorem Arithmetic.apply_eq_divisionByZero {operation : Arithmetic} :
    operation.apply a b = .error .divisionByZero ↔
      (operation = .divide ∨ operation = .remainder) ∧ b = 0 := by
  cases operation with
  | divide | remainder =>
    by_cases hb : b = 0 <;> simp [apply, hb]
  | add | subtract | multiply | bitAnd | bitOr | bitXor => simp [apply]

end Integers

section Faults

variable {operand : Operand} {registers : Registers} {ram : Memory} {address value : Int32} {fault : Fault}

theorem Memory.fault_of_placeNumber (h : ram.placeNumber address value = .error fault) :
    fault.isOfPlace = true ∨ fault = .numberOutOfRange value := by
  rcases bind_eq_error.mp h with hlocate | ⟨start, -, hrest⟩
  · exact Or.inl (isOfPlace_of_locate hlocate)
  · rcases bind_eq_error.mp hrest with hencode | ⟨word, -, hlast⟩
    · by_cases hvalue : value.toInt.natAbs ≤ Word.maxMagnitude
      · obtain ⟨word, hword, -⟩ := Word.encode_of_le hvalue
        rw [hword] at hencode
        cases hencode
      · rw [Word.encode_of_not_le hvalue] at hencode
        exact Or.inr (Except.error.inj hencode).symm
    · cases hlast

/-- An operand that cannot be read names a place that is not there. -/
theorem Operand.isOfPlace_of_read (h : operand.read registers ram = .error fault) :
    fault.isOfPlace = true := by
  have hregister {index : Int32} (h : registers.read index = .error fault) : fault.isOfPlace = true := by
    rcases bind_eq_error.mp h with hlocate | ⟨slot, -, hlast⟩
    · exact Registers.isOfPlace_of_locate hlocate
    · cases hlast
  have hnumber {address : Int32} (h : ram.readNumber address = .error fault) : fault.isOfPlace = true := by
    rcases bind_eq_error.mp h with hlocate | ⟨start, -, hlast⟩
    · exact Memory.isOfPlace_of_locate hlocate
    · cases hlast
  obtain ⟨mode, payload⟩ := operand
  cases mode with
  | register => exact hregister h
  | registerValue =>
    rcases bind_eq_error.mp h with hread | ⟨address, -, hrest⟩
    · exact hregister hread
    · exact hnumber hrest
  | pointer => exact hnumber h
  | constant => cases h

/-- A value is not written for want of a place, or of a word. -/
theorem Operand.fault_of_write (h : operand.write registers ram value = .error fault) :
    fault.isOfPlace = true ∨ fault = .numberOutOfRange value := by
  have hplace := destination_of_write_error h
  obtain ⟨mode, payload⟩ := operand
  cases mode with
  | register =>
    rcases bind_eq_error.mp hplace with hlocate | ⟨slot, -, hlast⟩
    · exact Or.inl (Registers.isOfPlace_of_locate hlocate)
    · cases hlast
  | registerValue =>
    rcases bind_eq_error.mp hplace with hread | ⟨address, -, hrest⟩
    · have hregister : (Operand.mk .register payload).read registers ram = .error fault := hread
      exact Or.inl (isOfPlace_of_read hregister)
    · rcases bind_eq_error.mp hrest with hnumber | ⟨place, -, hlast⟩
      · exact Memory.fault_of_placeNumber hnumber
      · cases hlast
  | pointer =>
    rcases bind_eq_error.mp hplace with hnumber | ⟨place, -, hlast⟩
    · exact Memory.fault_of_placeNumber hnumber
    · cases hlast
  | constant =>
    cases hplace
    exact Or.inl rfl

end Faults

/-- The operand has received the value, and nothing else differs. -/
structure Operand.Receives (operand : Operand) (value : Int32) (before after : Machine) : Prop where
  readBack : operand.read after.registers after.ram = .ok value
  rewrites : operand.Rewrites before.registers before.ram after.registers after.ram
  same : after = { before with registers := after.registers, ram := after.ram }

theorem Operand.receives_of_write {operand : Operand} {value : Int32} {before : Machine}
    {registers : Registers} {ram : Memory}
    (h : operand.write before.registers before.ram value = .ok (registers, ram)) :
    operand.Receives value before { before with registers := registers, ram := ram } :=
  ⟨read_of_write h, rewrites_of_write h, rfl⟩

namespace Execution

variable {operand : Operand} {value : Int32} {session : Session}

theorem yields_store : Yields (store operand value) (fun _ _ => True)
    (fun fault _ => fault.isOfPlace = true ∨ fault = .numberOutOfRange value) session := by
  unfold Yields
  cases h : operand.write session.machine.registers session.machine.ram value with
  | ok written =>
    rw [store_of_write h]
    trivial
  | error fault =>
    rw [store_of_error h]
    exact Operand.fault_of_write h

end Execution

section Perform

open Execution

variable {operation : Arithmetic} {condition : Condition} {left right target : Operand} {next depth : Nat}
  {session : Session} {a b result : Int32}

/-- Once the operands are read and the result is there, only storing it is left. -/
theorem Statement.perform_compute
    (ha : left.read session.machine.registers session.machine.ram = .ok a)
    (hb : right.read session.machine.registers session.machine.ram = .ok b)
    (hresult : operation.apply a b = .ok result) :
    (⟨.compute operation, condition, [left, right, target], rfl⟩ : Statement).perform next depth session =
      (do store target result
          note (.computed a b result)
          return .goto next : Execution Transfer) session :=
  (bind_ok (observe_ok ha)).trans ((bind_ok (observe_ok hb)).trans (bind_ok (observe_ok hresult)))

theorem Statement.perform_compute_of_accepts
    (ha : left.read session.machine.registers session.machine.ram = .ok a)
    (hb : right.read session.machine.registers session.machine.ram = .ok b)
    (hresult : operation.apply a b = .ok result)
    (haccepts : target.Accepts session.machine.registers session.machine.ram result) :
    ∃ after, (⟨.compute operation, condition, [left, right, target], rfl⟩ : Statement).perform next depth
        session = .ok (.goto next) after ∧ target.Receives result session.machine after.machine := by
  obtain ⟨⟨registers, ram⟩, hwrite⟩ := Operand.exists_write_iff.mpr haccepts
  refine ⟨_, (perform_compute ha hb hresult).trans (bind_ok (store_of_write hwrite)), ?_⟩
  exact Operand.receives_of_write hwrite

theorem Statement.perform_compute_of_unwritten {fault : Fault}
    (ha : left.read session.machine.registers session.machine.ram = .ok a)
    (hb : right.read session.machine.registers session.machine.ram = .ok b)
    (hresult : operation.apply a b = .ok result)
    (hwrite : target.write session.machine.registers session.machine.ram result = .error fault) :
    (⟨.compute operation, condition, [left, right, target], rfl⟩ : Statement).perform next depth session =
      .error fault session :=
  (perform_compute ha hb hresult).trans (bind_error (store_of_error hwrite))

/-- What the statement can fail for. -/
theorem Statement.yields_compute :
    Yields ((⟨.compute operation, condition, [left, right, target], rfl⟩ : Statement).perform next depth)
      (fun _ _ => True) (fun fault _ => fault.isOfPlace = true ∨ (∃ value, fault = .numberOutOfRange value) ∨
        ∃ a b, left.read session.machine.registers session.machine.ram = .ok a ∧
          right.read session.machine.registers session.machine.ram = .ok b ∧
          operation.apply a b = .error fault) session := by
  refine yields_observe_bind.mpr ⟨fun a ha => ?_, fun fault h => ?left⟩
  case left => exact Or.inl (Operand.isOfPlace_of_read h)
  refine yields_observe_bind.mpr ⟨fun b hb => ?_, fun fault h => ?right⟩
  case right => exact Or.inl (Operand.isOfPlace_of_read h)
  refine yields_observe_bind.mpr ⟨fun result _ => ?_, fun fault h => ?result⟩
  case result => exact Or.inr (Or.inr ⟨a, b, ha, hb, h⟩)
  refine yields_bind.mpr (yields_store.mono (fun _ _ _ => trivial) fun fault _ h => ?_)
  exact h.imp_right fun hvalue => Or.inl ⟨result, hvalue⟩

/-- Only a division by zero is reported as one. -/
theorem Statement.perform_compute_eq_divisionByZero :
    (∃ after, (⟨.compute operation, condition, [left, right, target], rfl⟩ : Statement).perform next depth
        session = .error .divisionByZero after) ↔
      (operation = .divide ∨ operation = .remainder) ∧
        (∃ a, left.read session.machine.registers session.machine.ram = .ok a) ∧
        right.read session.machine.registers session.machine.ram = .ok 0 := by
  constructor
  · rintro ⟨after, h⟩
    rcases yields_compute.of_error h with hplace | ⟨value, hvalue⟩ | ⟨a, b, ha, hb, hresult⟩
    · cases hplace
    · cases hvalue
    · obtain ⟨hoperation, rfl⟩ := Arithmetic.apply_eq_divisionByZero.mp hresult
      exact ⟨hoperation, ⟨a, ha⟩, hb⟩
  · rintro ⟨hoperation, ⟨a, ha⟩, hb⟩
    have hresult : operation.apply a 0 = .error .divisionByZero :=
      Arithmetic.apply_eq_divisionByZero.mpr ⟨hoperation, rfl⟩
    refine ⟨session, (bind_ok (observe_ok ha)).trans ((bind_ok (observe_ok hb)).trans ?_)⟩
    exact bind_error (observe_error hresult)

end Perform

open Execution in
/--
A statement of arithmetic offers its target the exact result modulo 2^32. A register takes it as it is, and so
do four bytes of RAM if it has a word; otherwise the statement fails and changes nothing. It fails for a
division by zero exactly if it divides and reads a zero to divide by.
-/
theorem Statement.arithmetic_wraps (operation : Arithmetic) (condition : Condition)
    (left right target : Operand) (next depth : Nat) (session : Session) :
    let statement : Statement := ⟨.compute operation, condition, [left, right, target], rfl⟩
    let outcome := statement.perform next depth session
    let machine := session.machine
    (∀ a b exact, left.read machine.registers machine.ram = .ok a →
      right.read machine.registers machine.ram = .ok b → operation.exact? a.toInt b.toInt = some exact →
      ∃ result, Wraps exact result ∧
        outcome = (do store target result
                      note (.computed a b result)
                      return .goto next : Execution Transfer) session ∧
        (target.mode = .register → 0 ≤ target.payload.toInt →
          target.payload.toInt < machine.registers.size →
          ∃ after, outcome = .ok (.goto next) after ∧ target.Receives result machine after.machine) ∧
        ∀ address, target.address? machine.registers = some address → machine.ram.HoldsNumber address →
          (result.toInt.natAbs ≤ Word.maxMagnitude →
            ∃ after, outcome = .ok (.goto next) after ∧ target.Receives result machine after.machine) ∧
          (Word.maxMagnitude < result.toInt.natAbs →
            outcome = .error (.numberOutOfRange result) session)) ∧
    ((∃ after, outcome = .error .divisionByZero after) ↔
      (operation = .divide ∨ operation = .remainder) ∧
        (∃ a, left.read machine.registers machine.ram = .ok a) ∧
        right.read machine.registers machine.ram = .ok 0) ∧
    ∀ a b : Int32, b ≠ 0 → ∃ quotient remainder, Arithmetic.divide.apply a b = .ok quotient ∧
      Arithmetic.remainder.apply a b = .ok remainder ∧
      Truncates a.toInt b.toInt (a.toInt.tdiv b.toInt) remainder.toInt ∧ quotient * b + remainder = a := by
  intro statement outcome machine
  refine ⟨fun a b exact ha hb hexact => ?_, perform_compute_eq_divisionByZero, fun a b hb => ?_⟩
  · obtain ⟨result, hresult, hwraps⟩ := Arithmetic.apply_wraps hexact
    refine ⟨result, hwraps, perform_compute ha hb hresult, fun hmode hlow hhigh => ?register,
      fun address haddress hholds => ⟨fun hvalue => ?word, fun hvalue => ?unencodable⟩⟩
    case register =>
      have haccepts : target.Accepts machine.registers machine.ram result := by
        rw [Operand.Accepts, hmode]
        exact ⟨hlow, hhigh⟩
      exact perform_compute_of_accepts ha hb hresult haccepts
    case word =>
      have haccepts : target.Accepts machine.registers machine.ram result :=
        (Operand.accepts_iff_of_address? haddress).mpr ⟨hholds, hvalue⟩
      exact perform_compute_of_accepts ha hb hresult haccepts
    case unencodable =>
      have hwrite := Operand.write_of_not_le haddress hholds (Nat.not_le.mpr hvalue)
      exact perform_compute_of_unwritten ha hb hresult hwrite
  · exact Arithmetic.apply_divide_remainder a hb

/-- A machine whose first register holds the least number, and whose RAM has room for one number. -/
def leastNumber : Session :=
  .ofMachine {
    registers := ⟨#[Int32.minValue], 0⟩
    ram := .zeros .ram 4
    disk := .ofBytes "" #[]
    console := .ofInput []
    maxDepth := 0 }

/-- The least number over -1 is itself again in a register, and has no word to be stored to RAM with. -/
theorem Statement.arithmetic_wraps_leastQuotient (next depth : Nat) :
    let divide (target : Operand) : Statement :=
      ⟨.compute .divide, .always, [⟨.register, 0⟩, ⟨.constant, -1⟩, target], rfl⟩
    (∃ after, (divide ⟨.register, 0⟩).perform next depth leastNumber = .ok (.goto next) after ∧
      (Operand.mk .register 0).Receives Int32.minValue leastNumber.machine after.machine) ∧
    (divide ⟨.pointer, 0⟩).perform next depth leastNumber =
      .error (.numberOutOfRange Int32.minValue) leastNumber := by
  intro divide
  have hexact : Arithmetic.divide.exact? Int32.minValue.toInt (-1 : Int32).toInt = some (2 ^ 31) := by
    decide
  have hleast {result : Int32} (h : Wraps (2 ^ 31) result) : Int32.minValue = result :=
    (h Int32.minValue).mp (by decide)
  constructor
  · obtain ⟨result, hwraps, -, hregister, -⟩ := (arithmetic_wraps .divide .always ⟨.register, 0⟩
      ⟨.constant, -1⟩ ⟨.register, 0⟩ next depth leastNumber).1 _ _ _ rfl rfl hexact
    obtain rfl := hleast hwraps
    exact hregister rfl (by decide) (by decide)
  · obtain ⟨result, hwraps, -, -, hram⟩ := (arithmetic_wraps .divide .always ⟨.register, 0⟩
      ⟨.constant, -1⟩ ⟨.pointer, 0⟩ next depth leastNumber).1 _ _ _ rfl rfl hexact
    obtain rfl := hleast hwraps
    exact (hram 0 rfl ⟨by decide, by decide⟩).2 (by decide)

end Microcomputer
