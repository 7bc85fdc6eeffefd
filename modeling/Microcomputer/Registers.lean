import Microcomputer.Fault

/-! The register file and the compare flag. -/
namespace Microcomputer

structure Registers where
  values : Array Int32
  compare : Int32
  deriving DecidableEq, Repr

namespace Registers

def zeros (count : Nat) : Registers :=
  ⟨Array.replicate count 0, 0⟩

def size (registers : Registers) : Nat :=
  registers.values.size

def locate (registers : Registers) (index : Int32) : Except Fault Nat :=
  if 0 ≤ index.toInt ∧ index.toInt < registers.size then .ok index.toInt.toNat
  else .error (.registerOutOfRange index registers.size)

@[inline]
def put (registers : Registers) (slot : Nat) (value : Int32) : Registers :=
  { registers with values := registers.values.setIfInBounds slot value }

def read (registers : Registers) (index : Int32) : Except Fault Int32 := do
  let slot ← registers.locate index
  return registers.values.getD slot 0

def write (registers : Registers) (index : Int32) (value : Int32) : Except Fault Registers := do
  let slot ← registers.locate index
  return registers.put slot value

@[simp]
theorem size_put (registers : Registers) (slot : Nat) (value : Int32) :
    (registers.put slot value).size = registers.size := by
  simp [put, size]

@[simp]
theorem compare_put (registers : Registers) (slot : Nat) (value : Int32) :
    (registers.put slot value).compare = registers.compare := rfl

theorem locate_eq_ok_iff {registers : Registers} {index : Int32} {slot : Nat} :
    registers.locate index = .ok slot ↔ index.toInt = slot ∧ slot < registers.size := by
  unfold locate
  split
  · simp only [Except.ok.injEq]
    omega
  · simp only [reduceCtorEq, false_iff]
    omega

end Registers
end Microcomputer
