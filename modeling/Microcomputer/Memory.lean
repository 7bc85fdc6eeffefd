import Microcomputer.Bytes
import Microcomputer.Word

/-!
# Memory

A region of bytes of fixed size. Every access names a span, and a span that does not lie inside the
region is refused before anything is read or written.
-/
namespace Microcomputer

structure Memory where
  region : Region
  bytes : Bytes
  deriving DecidableEq, Repr

namespace Memory

def zeros (region : Region) (size : Nat) : Memory :=
  ⟨region, Array.replicate size 0⟩

def size (memory : Memory) : Nat :=
  memory.bytes.size

def outOfRange (memory : Memory) (address : Int) : Fault :=
  .addressOutOfRange memory.region address memory.size

/-- Where the span of `length` bytes at `address` starts. -/
def locate (memory : Memory) (address : Int) (length : Nat) : Except Fault Nat :=
  if 0 ≤ address ∧ address + length ≤ memory.size then .ok address.toNat
  else .error (memory.outOfRange address)

/-- The bytes of a span. -/
def load (memory : Memory) (address : Int) (length : Nat) : Except Fault (List UInt8) := do
  let start ← memory.locate address length
  return memory.bytes.window start length

/-- Lays bytes over the region; what `locate` admits falls inside. -/
@[inline]
def put (memory : Memory) (start : Nat) (data : List UInt8) : Memory :=
  { memory with bytes := memory.bytes.overlay start data }

def store (memory : Memory) (address : Int) (data : List UInt8) : Except Fault Memory := do
  let start ← memory.locate address data.length
  return memory.put start data

def readByte (memory : Memory) (address : Int32) : Except Fault UInt8 := do
  let start ← memory.locate address.toInt 1
  return memory.bytes.getD start 0

def writeByte (memory : Memory) (address : Int32) (value : UInt8) : Except Fault Memory :=
  memory.store address.toInt [value]

/-- The word that starts at `start`; bytes past the end count as zero. -/
def wordAt (memory : Memory) (start : Nat) : Word where
  tag := memory.bytes.getD start 0
  high := memory.bytes.getD (start + 1) 0
  middle := memory.bytes.getD (start + 2) 0
  low := memory.bytes.getD (start + 3) 0

def readNumber (memory : Memory) (address : Int32) : Except Fault Int32 := do
  let start ← memory.locate address.toInt Word.size
  return (memory.wordAt start).decode

/-- Where a number would go and as which word; the span is checked before the number. -/
def placeNumber (memory : Memory) (address : Int32) (value : Int32) : Except Fault (Nat × Word) := do
  let start ← memory.locate address.toInt Word.size
  let word ← Word.encode value
  return (start, word)

def writeNumber (memory : Memory) (address : Int32) (value : Int32) : Except Fault Memory := do
  let (start, word) ← memory.placeNumber address value
  return memory.put start word.bytes

/-- An array address is unsigned, and its upper half counts as negative. -/
def arrayAddress (address : UInt64) : Int :=
  address.toInt64.toInt

def readArray (memory : Memory) (address : UInt64) (length : Nat) : Except Fault (List UInt8) :=
  memory.load (arrayAddress address) length

def writeArray (memory : Memory) (address : UInt64) (data : List UInt8) : Except Fault Memory :=
  memory.store (arrayAddress address) data

@[simp]
theorem size_put (memory : Memory) (start : Nat) (data : List UInt8) :
    (memory.put start data).size = memory.size :=
  Bytes.size_overlay ..

@[simp]
theorem region_put (memory : Memory) (start : Nat) (data : List UInt8) :
    (memory.put start data).region = memory.region := rfl

theorem window_wordAt {memory : Memory} {start : Nat} (h : start + Word.size ≤ memory.size) :
    memory.bytes.window start Word.size = (memory.wordAt start).bytes := by
  have hbytes : start + 4 ≤ memory.bytes.size := h
  apply List.ext_getElem?
  intro i
  rw [Bytes.getElem?_window]
  simp only [Word.bytes, wordAt, Array.getD_eq_getD_getElem?, Word.size]
  have hin (k : Nat) (hk : k < 4) : memory.bytes[start + k]? = some (memory.bytes[start + k]?.getD 0) := by
    rw [Array.getElem?_eq_getElem (by omega), Option.getD_some]
  match i with
  | 0 => exact hin 0 (by decide)
  | 1 => exact hin 1 (by decide)
  | 2 => exact hin 2 (by decide)
  | 3 => exact hin 3 (by decide)
  | n + 4 => exact if_neg (by omega)

theorem locate_eq_ok_iff {memory : Memory} {address : Int} {length start : Nat} :
    memory.locate address length = .ok start ↔
      address = start ∧ start + length ≤ memory.size := by
  unfold locate
  split
  · simp only [Except.ok.injEq]
    omega
  · simp only [reduceCtorEq, false_iff]
    omega

theorem locate_eq_error_iff {memory : Memory} {address : Int} {length : Nat} {fault : Fault} :
    memory.locate address length = .error fault ↔
      (address < 0 ∨ memory.size < address + length) ∧ fault = memory.outOfRange address := by
  unfold locate
  split
  · simp only [reduceCtorEq, false_iff]
    omega
  · simp only [Except.error.injEq]
    constructor
    · intro h
      exact ⟨by omega, h.symm⟩
    · exact fun h => h.2.symm

end Memory
end Microcomputer
