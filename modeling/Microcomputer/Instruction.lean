import Microcomputer.Fault

/-! The instructions, their codes and names, and the number of operands each of them takes. -/
namespace Microcomputer

inductive Arithmetic
  | add
  | subtract
  | multiply
  | divide
  | remainder
  | bitAnd
  | bitOr
  | bitXor
  deriving DecidableEq, Repr

/-- All results wrap to 32 bits; a quotient is rounded toward zero. -/
def Arithmetic.apply (operation : Arithmetic) (a b : Int32) : Except Fault Int32 :=
  match operation with
  | add => .ok (a + b)
  | subtract => .ok (a - b)
  | multiply => .ok (a * b)
  | divide => if b = 0 then .error .divisionByZero else .ok (a / b)
  | remainder => if b = 0 then .error .divisionByZero else .ok (a % b)
  | bitAnd => .ok (a &&& b)
  | bitOr => .ok (a ||| b)
  | bitXor => .ok (a ^^^ b)

inductive Instruction
  | move
  | compute (operation : Arithmetic)
  | receive
  | send
  | compare
  | branch
  | diskRead
  | diskWrite
  | execute
  | stop
  | diskLoad
  deriving DecidableEq, Repr

namespace Instruction

/-- In the order of their codes. -/
def all : List Instruction :=
  [move, compute .add, compute .subtract, compute .multiply, compute .divide, compute .remainder,
   receive, send, compute .bitAnd, compute .bitOr, compute .bitXor, compare, branch, diskRead,
   diskWrite, execute, stop, diskLoad]

def code : Instruction → UInt8
  | move => 0x01
  | compute .add => 0x02
  | compute .subtract => 0x03
  | compute .multiply => 0x04
  | compute .divide => 0x05
  | compute .remainder => 0x06
  | receive => 0x07
  | send => 0x08
  | compute .bitAnd => 0x09
  | compute .bitOr => 0x0A
  | compute .bitXor => 0x0B
  | compare => 0x0C
  | branch => 0x0D
  | diskRead => 0x0E
  | diskWrite => 0x0F
  | execute => 0x10
  | stop => 0x11
  | diskLoad => 0x12

def ofCode? (code : UInt8) : Option Instruction :=
  all.find? (·.code == code)

def name : Instruction → String
  | move => "MOV"
  | compute .add => "ADD"
  | compute .subtract => "SUB"
  | compute .multiply => "MUL"
  | compute .divide => "DIV"
  | compute .remainder => "MOD"
  | receive => "RFI"
  | send => "WTO"
  | compute .bitAnd => "AND"
  | compute .bitOr => "IOR"
  | compute .bitXor => "XOR"
  | compare => "CMP"
  | branch => "BRN"
  | diskRead => "RHD"
  | diskWrite => "WHD"
  | execute => "EXE"
  | stop => "END"
  | diskLoad => "LHD"

/-- ASCII letters only, which is all that names hold. -/
def mnemonic (instruction : Instruction) : List Char :=
  instruction.name.toList.map Char.toLower

/-- Upper and lower case ASCII letters are the same here. -/
def ofName? (name : List Char) : Option Instruction :=
  all.find? (·.mnemonic == name.map Char.toLower)

/-- The number of operands. -/
def arity : Instruction → Nat
  | move | compare | diskRead | diskWrite | execute => 2
  | compute _ | diskLoad => 3
  | receive | send | branch => 1
  | stop => 0

def maxArity : Nat := 3

theorem ofCode?_eq_some_iff {code : UInt8} {instruction : Instruction} :
    ofCode? code = some instruction ↔ instruction.code = code := by
  constructor
  · intro h
    simpa using List.find?_some h
  · rintro rfl
    cases instruction with
    | compute operation => cases operation <;> rfl
    | _ => rfl

theorem arity_le_maxArity (instruction : Instruction) : instruction.arity ≤ maxArity := by
  cases instruction <;> simp [arity, maxArity]

end Instruction
end Microcomputer
