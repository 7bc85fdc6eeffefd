/-! White space, and the ways a line of text is cut at it. -/
namespace Microcomputer.Text

/-- The code points with the Unicode property White_Space, as closed ranges in ascending order. -/
def blankRanges : List (Nat × Nat) :=
  [(0x09, 0x0D), (0x20, 0x20), (0x85, 0x85), (0xA0, 0xA0), (0x1680, 0x1680), (0x2000, 0x200A),
   (0x2028, 0x2029), (0x202F, 0x202F), (0x205F, 0x205F), (0x3000, 0x3000)]

def isBlank (c : Char) : Bool :=
  blankRanges.any fun r => r.1 ≤ c.toNat && c.toNat ≤ r.2

def trimStart (text : List Char) : List Char :=
  text.dropWhile isBlank

def trimEnd (text : List Char) : List Char :=
  (text.reverse.dropWhile isBlank).reverse

def trim (text : List Char) : List Char :=
  trimEnd (trimStart text)

/-- The pieces between the separators, empty ones included; always at least one piece. -/
def split (separates : Char → Bool) (text : List Char) : List (List Char) :=
  text.foldr (fun c pieces =>
    if separates c then [] :: pieces
    else match pieces with
      | [] => [[c]]
      | piece :: rest => (c :: piece) :: rest) [[]]

def lines (text : List Char) : List (List Char) :=
  split (· == '\n') text

/-- The longest runs of characters that are not blank. -/
def tokens (text : List Char) : List (List Char) :=
  (split isBlank text).filter fun piece => !piece.isEmpty

end Microcomputer.Text
