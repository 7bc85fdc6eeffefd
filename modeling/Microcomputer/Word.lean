import Microcomputer.Fault

/-!
# Words

A number is stored in four bytes: a tag and three digits of weight 256, 16 and 1. Digits may exceed
their base, the low three bits of the tag are added, and a tag that is a non-zero multiple of eight
negates, so many words carry the same number. Encoding produces one of them, the canonical one.
-/
namespace Microcomputer

structure Word where
  tag : UInt8
  high : UInt8
  middle : UInt8
  low : UInt8
  deriving DecidableEq, Repr

namespace Word

def size : Nat := 4

/-- The largest magnitude that has a canonical word. -/
def maxMagnitude : Nat := 0xFFFF

def bytes (word : Word) : List UInt8 :=
  [word.tag, word.high, word.middle, word.low]

/-- Bytes after the fourth are ignored. -/
def ofBytes? : List UInt8 → Option Word
  | tag :: high :: middle :: low :: _ => some ⟨tag, high, middle, low⟩
  | _ => none

def negative (word : Word) : Bool :=
  word.tag ≠ 0 && word.tag % 8 = 0

def magnitude (word : Word) : Nat :=
  word.low.toNat + word.middle.toNat * 16 + word.high.toNat * 256 + word.tag.toNat % 8

def value (word : Word) : Int :=
  if word.negative then -(word.magnitude : Int) else word.magnitude

def decode (word : Word) : Int32 :=
  Int32.ofInt word.value

/-- The canonical word of a magnitude, with the tag of its sign. -/
def ofMagnitude (negative : Bool) (magnitude : Nat) : Word where
  tag := if negative then 8 else 0
  high := UInt8.ofNat (magnitude / 256)
  middle := UInt8.ofNat (magnitude / 16 % 16)
  low := UInt8.ofNat (magnitude % 16)

def encode (number : Int32) : Except Fault Word :=
  if number.toInt.natAbs ≤ maxMagnitude then
    .ok (ofMagnitude (number.toInt < 0) number.toInt.natAbs)
  else
    .error (.numberOutOfRange number)

@[simp]
theorem length_bytes (word : Word) : word.bytes.length = size := rfl

@[simp]
theorem ofBytes?_bytes (word : Word) (rest : List UInt8) :
    ofBytes? (word.bytes ++ rest) = some word := rfl

end Word
end Microcomputer
