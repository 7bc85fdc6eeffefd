import Microcomputer.Assembly.Numeral
import Microcomputer.Assembly.Rejection
import Microcomputer.Statement

/-!
# Lines of a source

A line is sorted by its form, and read into the item that it adds to the image. Reading needs nothing
but the line: offsets of label operands are counted from the start of their statement.
-/
namespace Microcomputer.Assembly

open Text

inductive Line
  | blank
  | byte (text : List Char)
  | number (text : List Char)
  | padding (text : List Char)
  | label (name : List Char)
  | statement (mnemonic : List Char) (operands : List (List Char))
  deriving DecidableEq, Repr

namespace Line

/-- The text before the first comment mark, trimmed. -/
def code (text : List Char) : List Char :=
  trim (text.takeWhile (· != '#'))

def ofColon (body : List Char) : Line :=
  match body with
  | first :: _ => if first.isDigit then padding body else label body
  | [] => label []

def ofWords (text : List Char) : Line :=
  match tokens text with
  | [] => blank
  | mnemonic :: operands => statement mnemonic operands

def ofCode (text : List Char) : Line :=
  match text with
  | [] => blank
  | '!' :: 'N' :: rest => number rest
  | '!' :: rest => byte rest
  | _ =>
    if text.getLast? = some ':' then ofColon (trim text.dropLast)
    else match text with
      | 'l' :: 'b' :: 'l' :: ' ' :: rest => label (trim rest)
      | _ => ofWords text

def ofText (text : List Char) : Line :=
  ofCode (code text)

end Line

/-- An operand slot; that of a label holds zero until the label's address is known. -/
structure Slot where
  operand : Operand
  label? : Option (List Char)
  deriving DecidableEq, Repr

/-- A label operand: where its word lies, from the start of the statement, and the label's name. -/
structure LabelUse where
  offset : Nat
  label : List Char
  deriving DecidableEq, Repr

/-- What a line adds to the image. -/
inductive Item
  | nothing
  | data (bytes : List UInt8) (uses : List LabelUse)
  | padding (address : Nat)
  | label (name : List Char)
  deriving DecidableEq, Repr

/-- What is reported while a line is taken in. -/
inductive Note
  | numberLiteral
  | byteLiteral
  | addressLabel
  | padded (address : Nat)
  | labelled (name : List Char) (address : Nat)
  | statement (instruction : Instruction)
  deriving DecidableEq, Repr

/-- A line's item, or why it has none, and what was reported on the way. -/
structure Reading where
  notes : List Note
  outcome : Except Rejection Item

/-- The number in `text`, if it lies between `low` and `high`. -/
def readNumber (use : NumberUse) (low high : Int) (text : List Char) : Except Rejection Int :=
  match Numeral.read text with
  | none => .error (.missingNumber use)
  | some (.error radix) => .error (.malformedNumber radix text)
  | some (.ok value) =>
    if low ≤ value.toInt ∧ value.toInt ≤ high then .ok value.toInt
    else .error (.numberOutOfRange use text)

def readInt32 (use : NumberUse) (text : List Char) : Except Rejection Int32 :=
  (readNumber use Int32.minValue.toInt Int32.maxValue.toInt text).map Int32.ofInt

def readAddress (text : List Char) : Except Rejection Nat := do
  let address := (← readNumber .address 0 Int64.maxValue.toInt text).toNat
  if Word.maxMagnitude < address then .error (.addressTooLarge address) else .ok address

def isLabelChar (c : Char) : Bool :=
  c.isAlphanum || c == '_' || c == '-'

/-- ASCII letters and digits, underscores and hyphens, at least one of them. -/
def isLabelName (name : List Char) : Bool :=
  !name.isEmpty && name.all isLabelChar

def readRegister (text : List Char) : Except Rejection Operand :=
  match text with
  | '$' :: index => return ⟨.registerValue, ← readInt32 .operand index⟩
  | index => return ⟨.register, ← readInt32 .operand index⟩

def readSlot (token : List Char) : Except Rejection Slot :=
  match token with
  | '@' :: label => .ok ⟨⟨.constant, 0⟩, some label⟩
  | 'R' :: rest | 'r' :: rest => return ⟨← readRegister rest, none⟩
  | '=' :: value => return ⟨⟨.constant, ← readInt32 .operand value⟩, none⟩
  | address => return ⟨⟨.pointer, ← readInt32 .operand address⟩, none⟩

def readSlots : (tokens : List (List Char)) →
    Except Rejection { slots : List Slot // slots.length = tokens.length }
  | [] => .ok ⟨[], rfl⟩
  | token :: tokens => do
    let slot ← readSlot token
    let ⟨slots, h⟩ ← readSlots tokens
    return ⟨slot :: slots, congrArg (· + 1) h⟩

/-- The label operands among the slots from number `index` on. -/
def labelUses (index : Nat) : List Slot → List LabelUse
  | [] => []
  | ⟨_, some label⟩ :: slots =>
    ⟨Statement.headerSize + index * Operand.size + 1, label⟩ :: labelUses (index + 1) slots
  | ⟨_, none⟩ :: slots => labelUses (index + 1) slots

/-- The parts of a mnemonic before and after its first point. -/
def splitMnemonic (mnemonic : List Char) : List Char × Option (List Char) :=
  match mnemonic.dropWhile (· != '.') with
  | [] => (mnemonic, none)
  | _ :: suffix => (mnemonic.takeWhile (· != '.'), some suffix)

def readCondition (suffix? : Option (List Char)) : Except Rejection Condition :=
  match suffix? with
  | none => .ok .always
  | some suffix =>
    match Condition.ofSuffix? (String.ofList suffix) with
    | none => .error (.unknownCondition suffix)
    | some condition => .ok condition

/-- The statement with zero in its label operands, and those operands. -/
def readStatement (mnemonic : List Char) (tokens : List (List Char)) :
    Except Rejection (Statement × List LabelUse) := do
  let (name, suffix?) := splitMnemonic mnemonic
  match Instruction.ofName? name with
  | none => .error (.unknownInstruction name)
  | some instruction =>
    let condition ← readCondition suffix?
    if arity : tokens.length = instruction.arity then
      let ⟨slots, h⟩ ← readSlots tokens
      let operands := slots.map (·.operand)
      return (⟨instruction, condition, operands, by simp [operands, h, arity]⟩, labelUses 0 slots)
    else
      .error (.arityMismatch instruction tokens.length)

def Line.read (line : Line) : Reading :=
  match line with
  | .blank => ⟨[], .ok .nothing⟩
  | .number text => ⟨[.numberLiteral], do
    let word ← (Word.encode (← readInt32 .literal text)).mapError .unencodable
    return .data word.bytes []⟩
  | .byte text => ⟨[.byteLiteral], do
    let value ← readNumber .literal 0 255 text
    return .data [UInt8.ofNat value.toNat] []⟩
  | .padding text => ⟨[.addressLabel], return .padding (← readAddress text)⟩
  | .label name => ⟨[], if isLabelName name then .ok (.label name) else .error (.invalidLabel name)⟩
  | .statement mnemonic tokens =>
    match readStatement mnemonic tokens with
    | .error rejection => ⟨[], .error rejection⟩
    | .ok (built, uses) => ⟨[.statement built.instruction],
      match built.encode with
      | .error fault => .error (.unencodable fault)
      | .ok bytes => .ok (.data bytes uses)⟩

end Microcomputer.Assembly
