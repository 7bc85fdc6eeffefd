import Microcomputer.Host
import Microcomputer.Engine

/-!
# Access on a host

How a host reads and writes numbers, registers and operands, and how it fetches and decodes a statement,
with each of its operations one that may trap.
-/
namespace Microcomputer.Host

/-- The weighted digits are added one by one, and each sum has to fit. -/
def decodeWord (word : Word) : Except Halt Int32 := do
  let middle ← signed (word.middle.toNat * 16)
  let sum ← signed (word.low.toNat + middle)
  let high ← signed (word.high.toNat * 256)
  let sum ← signed (sum + high)
  let sum ← signed (sum + (word.tag.toNat % 8 : Nat))
  if word.negative then
    return Int32.ofInt (← signed (-sum))
  else
    return Int32.ofInt sum

/-- The word in a copy of four bytes. -/
def wordOf (bytes : List UInt8) : Except Halt Word := do
  match ← paste (List.replicate Word.size 0) 0 Word.size bytes with
  | [tag, high, middle, low] => return ⟨tag, high, middle, low⟩
  | _ => trap .outOfBounds

/-- Where a span starts and stops. A sum beyond all sizes is beyond the memory too. -/
def span (memory : Memory) (address : Int) (length : Nat) : Except Halt (Nat × Nat) :=
  if address < 0 then
    refuse (memory.outOfRange address)
  else
    let stop := address.toNat + length
    if stop < sizeLimit ∧ stop ≤ memory.size then .ok (address.toNat, stop)
    else refuse (memory.outOfRange address)

def overwrite (memory : Memory) (start stop : Nat) (data : List UInt8) : Except Halt Memory := do
  let bytes ← paste memory.bytes.toList start stop data
  return { memory with bytes := bytes.toArray }

def readNumber (memory : Memory) (address : Int32) : Except Halt Int32 := do
  let (start, stop) ← span memory address.toInt Word.size
  let bytes ← slice memory.bytes.toList start stop
  decodeWord (← wordOf bytes)

def writeNumber (memory : Memory) (address value : Int32) : Except Halt Memory := do
  let (start, stop) ← span memory address.toInt Word.size
  let word ← lift (Word.encode value)
  overwrite memory start stop word.bytes

def readArray (memory : Memory) (start length : Nat) : Except Halt (List UInt8) := do
  let (start, stop) ← span memory (← addressOf start) length
  slice memory.bytes.toList start stop

def writeArray (memory : Memory) (start : Nat) (data : List UInt8) : Except Halt Memory := do
  let (start, stop) ← span memory (← addressOf start) data.length
  overwrite memory start stop data

def register (registers : Registers) (index : Int32) : Except Halt Nat :=
  if 0 ≤ index.toInt then do
    let slot ← sizeOf index
    if slot < registers.size then return slot else refuse (.registerOutOfRange index registers.size)
  else
    refuse (.registerOutOfRange index registers.size)

def readRegister (registers : Registers) (index : Int32) : Except Halt Int32 := do
  let slot ← register registers index
  Host.index registers.values.toList slot

def writeRegister (registers : Registers) (index value : Int32) : Except Halt Registers := do
  let slot ← register registers index
  let values ← assign registers.values.toList slot value
  return { registers with values := values.toArray }

def readOperand (operand : Operand) (registers : Registers) (ram : Memory) : Except Halt Int32 :=
  match operand.mode with
  | .register => readRegister registers operand.payload
  | .registerValue => do readNumber ram (← readRegister registers operand.payload)
  | .pointer => readNumber ram operand.payload
  | .constant => .ok operand.payload

def writeOperand (operand : Operand) (registers : Registers) (ram : Memory) (value : Int32) :
    Except Halt (Registers × Memory) :=
  match operand.mode with
  | .register => return (← writeRegister registers operand.payload value, ram)
  | .registerValue => do
    let address ← readRegister registers operand.payload
    return (registers, ← writeNumber ram address value)
  | .pointer => return (registers, ← writeNumber ram operand.payload value)
  | .constant => refuse .constantWrite

def decodeOperand (bytes : List UInt8) : Except Halt Operand := do
  if bytes.length < Operand.size then
    refuse (.truncatedStatement Operand.size bytes.length)
  else
    let code ← index bytes 0
    match Mode.ofCode? code with
    | none => refuse (.invalidMode code)
    | some mode =>
      let word ← wordOf (← slice bytes 1 Operand.size)
      return ⟨mode, ← decodeWord word⟩

/-- One operand for each whole chunk, as long as there are slots. -/
def decodeOperands : (slots : Nat) → List UInt8 → Except Halt (List Operand)
  | 0, _ => .ok []
  | slots + 1, bytes =>
    if bytes.length < Operand.size then
      .ok []
    else do
      let operand ← decodeOperand (← slice bytes 0 Operand.size)
      let rest ← slice bytes Operand.size bytes.length
      return operand :: (← decodeOperands slots rest)

def decodeHeader (bytes : List UInt8) : Except Halt (Instruction × Condition) := do
  if bytes.length < Statement.headerSize then
    refuse (.truncatedStatement Statement.headerSize bytes.length)
  else
    let first ← index bytes 0
    match Instruction.ofCode? first with
    | none => refuse (.invalidOpcode first)
    | some instruction =>
      let second ← index bytes 1
      match Condition.ofCode? second with
      | none => refuse (.invalidCondition second)
      | some condition => return (instruction, condition)

def statementLength (instruction : Instruction) : Except Halt Nat := do
  let operands ← size (instruction.arity * Operand.size)
  size (Statement.headerSize + operands)

/-- All slots are filled, those without an operand with zero, and the first `arity` are used. -/
def usedSlots (instruction : Instruction) (operands : List Operand) : Except Halt (List Operand) :=
  let filler := List.replicate (Instruction.maxArity - operands.length) ⟨.constant, 0⟩
  slice (operands ++ filler) 0 instruction.arity

def decodeStatement (bytes : List UInt8) : Except Halt Statement := do
  let (instruction, condition) ← decodeHeader bytes
  let length ← statementLength instruction
  if bytes.length < length then
    refuse (.truncatedStatement length bytes.length)
  else
    let body ← slice bytes Statement.headerSize length
    let operands ← decodeOperands Instruction.maxArity body
    match Statement.ofOperands? instruction condition (← usedSlots instruction operands) with
    | some statement => return statement
    | none => trap .missingOperand

/-- The bytes of a stream, where it has them. -/
def source (code : Code) (ram : Memory) (offset length : Nat) : Except Halt (List UInt8) :=
  match code with
  | .image bytes => do slice bytes.toList offset (← size (offset + length))
  | .ram start _ => do readArray ram (← size (start + offset)) length

/-- A buffer for the longest statement whose first `length` bytes are those of the stream. -/
def fetch (code : Code) (ram : Memory) (offset length : Nat) : Except Halt (List UInt8) := do
  let available := code.size - offset
  if available < length then
    refuse (.truncatedStatement length available)
  else
    let bytes ← source code ram offset length
    paste (List.replicate Statement.maxLength 0) 0 length bytes

/-- What comes next at `offset`, and the offset after it. -/
def upcoming (code : Code) (offset : Nat) (machine : Machine) : Except Halt (Upcoming × Nat) := do
  let header ← fetch code machine.ram offset Statement.headerSize
  let (instruction, condition) ← decodeHeader (← slice header 0 Statement.headerSize)
  let length ← statementLength instruction
  let next ← size (offset + length)
  let bytes ← fetch code machine.ram offset length
  if condition.holds machine.registers.compare then
    return (.execute (← decodeStatement (← slice bytes 0 length)), next)
  else
    return (.skip instruction condition, next)

end Microcomputer.Host
