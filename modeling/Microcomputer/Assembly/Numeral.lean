import Microcomputer.Text.Blank

/-!
# Numerals of the assembler

An optional minus sign, an optional radix prefix, and digits that may carry a sign of their own. Digits
whose number, with that sign, does not fit into 64 signed bits are refused. The minus sign in front then
negates within 64 bits, so it leaves the least number as it is.
-/
namespace Microcomputer.Assembly.Numeral

open Text

/-- The radix that a prefix names, and what follows the prefix. -/
def radixAndDigits : List Char → Nat × List Char
  | '0' :: 'b' :: digits => (2, digits)
  | '0' :: 'o' :: digits => (8, digits)
  | '0' :: 'x' :: digits => (16, digits)
  | digits => (10, digits)

/-- Letters of either case stand for the digits from ten on. -/
def digit? (radix : Nat) (c : Char) : Option Nat :=
  let value? :=
    if '0' ≤ c ∧ c ≤ '9' then some (c.toNat - '0'.toNat)
    else if 'a' ≤ c ∧ c ≤ 'z' then some (c.toNat - 'a'.toNat + 10)
    else if 'A' ≤ c ∧ c ≤ 'Z' then some (c.toNat - 'A'.toNat + 10)
    else none
  value?.filter (· < radix)

def magnitude? (radix : Nat) (digits : List Char) : Option Nat :=
  if digits.isEmpty then none
  else digits.foldlM (fun value c => (digit? radix c).map (value * radix + ·)) 0

/-- Digits behind at most one sign, within 64 signed bits. -/
def integer? (radix : Nat) (text : List Char) : Option Int64 :=
  let value? : Option Int := match text with
    | '-' :: digits => (magnitude? radix digits).map fun n : Nat => -(n : Int)
    | '+' :: digits => (magnitude? radix digits).map fun n : Nat => (n : Int)
    | digits => (magnitude? radix digits).map fun n : Nat => (n : Int)
  let fits (value : Int) : Bool := Int64.minValue.toInt ≤ value && value ≤ Int64.maxValue.toInt
  (value?.filter fits).map Int64.ofInt

/-- A numeral without the minus sign in front; a malformed one is answered by the radix it was read in. -/
def readUnsigned (text : List Char) : Except Nat Int64 :=
  let (radix, digits) := radixAndDigits text
  match integer? radix digits with
  | some value => .ok value
  | none => .error radix

/-- A blank text holds no numeral. -/
def read (text : List Char) : Option (Except Nat Int64) :=
  match trim text with
  | [] => none
  | '-' :: rest => some ((readUnsigned rest).map (-·))
  | text => some (readUnsigned text)

end Microcomputer.Assembly.Numeral
