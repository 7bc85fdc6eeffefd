import Microcomputer.Assembly.Line

/-!
# Drafts

The image as far as the lines read so far determine it, with the labels they define and the label
operands whose words are still to be filled in.
-/
namespace Microcomputer.Assembly

/-- A label operand: where in the image its word lies, the label, and the line that refers to it. -/
structure Reference where
  offset : Nat
  label : List Char
  line : Nat
  deriving DecidableEq, Repr

structure Draft where
  image : Bytes
  /-- A later definition of a name hides the earlier ones. -/
  labels : List (List Char × Nat)
  references : Array Reference
  deriving DecidableEq, Repr

namespace Draft

def empty : Draft :=
  ⟨#[], [], #[]⟩

def address? (draft : Draft) (name : List Char) : Option Nat :=
  draft.labels.lookup name

/-- Takes in the item of a line. A label defined twice is moved to its new address and rejected. -/
def add (draft : Draft) (line : Nat) (item : Item) : Draft × List Note × Option Rejection :=
  match item, draft with
  | .nothing, draft => (draft, [], none)
  | .data bytes uses, ⟨image, labels, references⟩ =>
    let start := image.size
    let placed : List Reference := uses.map fun use => ⟨start + use.offset, use.label, line⟩
    (⟨image ++ bytes, labels, references ++ placed⟩, [], none)
  | .padding address, ⟨image, labels, references⟩ =>
    if address < image.size then
      (⟨image, labels, references⟩, [], some (.addressPassed address image.size))
    else
      let zeros := Array.replicate (address - image.size) 0
      (⟨image ++ zeros, labels, references⟩, [.padded address], none)
  | .label name, ⟨image, labels, references⟩ =>
    let address := image.size
    let rejection := if (labels.lookup name).isSome then some (.duplicateLabel name) else none
    (⟨image, (name, address) :: labels, references⟩, [.labelled name address], rejection)

/-- The word of a label's address. -/
def addressWord (draft : Draft) (label : List Char) : Except Rejection Word :=
  match draft.address? label with
  | none => .error (.unknownLabel label)
  | some address =>
    let word :=
      if address ≤ Int32.maxValue.toInt.toNat then Word.encode (Int32.ofNat address)
      else .error (.numberOutOfRange Int32.maxValue)
    word.mapError (.unencodableLabel label)

end Draft

end Microcomputer.Assembly
