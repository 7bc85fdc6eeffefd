/-! Written forms of whole numbers: decimal, lower-case hexadecimal, and a byte as two capital digits. -/
namespace Microcomputer.Text

def decimal : Int → String
  | .ofNat n => String.ofList (Nat.toDigits 10 n)
  | .negSucc n => String.ofList ('-' :: Nat.toDigits 10 (n + 1))

/-- No padding: zero is the single digit `0`. -/
def hex (n : Nat) : String :=
  String.ofList (Nat.toDigits 16 n)

def hexByte (b : UInt8) : String :=
  let digit (n : Nat) := (Nat.digitChar n).toUpper
  String.ofList [digit (b.toNat / 16), digit (b.toNat % 16)]

end Microcomputer.Text
