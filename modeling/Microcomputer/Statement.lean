import Microcomputer.Condition
import Microcomputer.Instruction
import Microcomputer.Operand

/-!
# Statements

An instruction, a condition, and one operand for every slot of the instruction. There is room for three
operands, and where the instruction has fewer slots the rest of the room holds the constant zero in every
statement, built or decoded. So it tells no two statements apart, and it is not kept here. The encoded form
is the two codes followed by the operands, so its length depends on the instruction alone.
-/
namespace Microcomputer

/-- The length of an encoded statement: two codes and the operands. -/
def Instruction.length (instruction : Instruction) : Nat :=
  2 + instruction.arity * Operand.size

structure Statement where
  instruction : Instruction
  condition : Condition
  operands : List Operand
  arity_eq : operands.length = instruction.arity := by rfl
  deriving DecidableEq, Repr

namespace Statement

def headerSize : Nat := 2

def maxLength : Nat :=
  headerSize + Instruction.maxArity * Operand.size

/-- `none` when there is not one operand for each slot. -/
def ofOperands? (instruction : Instruction) (condition : Condition) (operands : List Operand) :
    Option Statement :=
  if h : operands.length = instruction.arity then some ⟨instruction, condition, operands, h⟩ else none

def length (statement : Statement) : Nat :=
  statement.instruction.length

def text (statement : Statement) : String :=
  let suffix := match statement.condition.suffix? with
    | some suffix => "." ++ suffix
    | none => ""
  let operands := statement.operands.map fun operand => " " ++ operand.text
  String.ofList statement.instruction.mnemonic ++ suffix ++ String.join operands

/-- The instruction and the condition; bytes after the second are ignored. -/
def decodeHeader : List UInt8 → Except Fault (Instruction × Condition)
  | first :: second :: _ =>
    match Instruction.ofCode? first with
    | none => .error (.invalidOpcode first)
    | some instruction =>
      match Condition.ofCode? second with
      | none => .error (.invalidCondition second)
      | some condition => .ok (instruction, condition)
  | bytes => .error (.truncatedStatement headerSize bytes.length)

def decodeOperands : (count : Nat) → List UInt8 →
    Except Fault { operands : List Operand // operands.length = count }
  | 0, _ => .ok ⟨[], rfl⟩
  | count + 1, bytes => do
    let operand ← Operand.decode bytes
    let ⟨rest, h⟩ ← decodeOperands count (bytes.drop Operand.size)
    return ⟨operand :: rest, congrArg (· + 1) h⟩

/-- The statement whose header has been decoded, from all its bytes. -/
def decodeBody (instruction : Instruction) (condition : Condition) (bytes : List UInt8) :
    Except Fault Statement := do
  let ⟨operands, h⟩ ← decodeOperands instruction.arity (bytes.drop headerSize)
  return ⟨instruction, condition, operands, h⟩

/-- The statement at the front; bytes after its last are ignored. -/
def decode (bytes : List UInt8) : Except Fault Statement := do
  let (instruction, condition) ← decodeHeader bytes
  if (bytes.take instruction.length).length < instruction.length then
    .error (.truncatedStatement instruction.length bytes.length)
  else
    decodeBody instruction condition bytes

def encodeOperands : List Operand → Except Fault (List UInt8)
  | [] => .ok []
  | operand :: rest => do
    let bytes ← operand.encode
    return bytes ++ (← encodeOperands rest)

/-- Fails at the first operand whose payload has no word. -/
def encode (statement : Statement) : Except Fault (List UInt8) := do
  let operands ← encodeOperands statement.operands
  return statement.instruction.code :: statement.condition.code :: operands

theorem length_pos (statement : Statement) : 0 < statement.length := by
  unfold length Instruction.length
  omega

theorem length_of_encodeOperands {operands : List Operand} {bytes : List UInt8}
    (h : encodeOperands operands = .ok bytes) : bytes.length = operands.length * Operand.size := by
  induction operands generalizing bytes with
  | nil =>
    cases h
    rfl
  | cons operand rest ih =>
    cases he : operand.encode with
    | error fault => simp [encodeOperands, he, bind, Except.bind] at h
    | ok front =>
      cases hr : encodeOperands rest with
      | error fault => simp [encodeOperands, he, hr, bind, Except.bind] at h
      | ok back =>
        simp only [encodeOperands, he, hr, bind, Except.bind, pure, Except.pure, Except.ok.injEq] at h
        subst h
        rw [List.length_append, Operand.length_of_encode he, ih hr, List.length_cons, Nat.add_mul]
        omega

theorem length_of_encode {statement : Statement} {bytes : List UInt8}
    (h : statement.encode = .ok bytes) : bytes.length = statement.length := by
  cases ho : encodeOperands statement.operands with
  | error fault => simp [encode, ho, bind, Except.bind] at h
  | ok operands =>
    simp only [encode, ho, bind, Except.bind, pure, Except.pure, Except.ok.injEq] at h
    subst h
    simp only [List.length_cons, length_of_encodeOperands ho, statement.arity_eq, length,
      Instruction.length]
    omega

end Statement

theorem Instruction.headerSize_le_length (instruction : Instruction) :
    Statement.headerSize ≤ instruction.length :=
  Nat.le_add_right ..

theorem Instruction.length_le_maxLength (instruction : Instruction) :
    instruction.length ≤ Statement.maxLength :=
  Nat.add_le_add_left (Nat.mul_le_mul_right _ instruction.arity_le_maxArity) _

end Microcomputer
