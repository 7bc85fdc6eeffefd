import Microcomputer.Assembly.Numeral
import Microcomputer.Host

/-!
# Numerals on a host

How a host reads a numeral, with the negation behind a minus sign one that may trap.
-/
namespace Microcomputer.Host

open Assembly

def readNumeral (text : List Char) : Except Halt (Option (Except Nat Int64)) :=
  match Text.trim text with
  | [] => .ok none
  | '-' :: rest =>
    match Numeral.readUnsigned rest with
    | .error radix => .ok (some (.error radix))
    | .ok value => do return some (.ok (← negated value))
  | text => .ok (some (Numeral.readUnsigned text))

end Microcomputer.Host
