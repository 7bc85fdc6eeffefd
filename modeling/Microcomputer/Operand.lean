import Microcomputer.Memory
import Microcomputer.Registers

/-!
# Operands

A mode byte and a word. A register operand stands for the register, a pointer for the number at a
RAM address, a register value for the number at the address a register holds, a constant for itself.
-/
namespace Microcomputer

open Text

inductive Mode
  | register
  | registerValue
  | pointer
  | constant
  deriving DecidableEq, Repr

namespace Mode

def code : Mode → UInt8
  | register => 0
  | registerValue => 1
  | pointer => 2
  | constant => 3

def all : List Mode :=
  [register, registerValue, pointer, constant]

def ofCode? (code : UInt8) : Option Mode :=
  all.find? (·.code == code)

theorem ofCode?_eq_some_iff {code : UInt8} {mode : Mode} : ofCode? code = some mode ↔ mode.code = code := by
  constructor
  · intro h
    simpa using List.find?_some h
  · rintro rfl
    cases mode <;> rfl

end Mode

structure Operand where
  mode : Mode
  payload : Int32
  deriving DecidableEq, Repr

/-- The place a value is written to, once every check has passed. -/
inductive Destination
  | register (slot : Nat)
  | ram (start : Nat) (word : Word)
  deriving DecidableEq, Repr

namespace Operand

/-- The length of an encoded operand. -/
def size : Nat := 5

def text (operand : Operand) : String :=
  let payload := decimal operand.payload.toInt
  match operand.mode with
  | .register => "R" ++ payload
  | .registerValue => "R$" ++ payload
  | .pointer => payload
  | .constant => "=" ++ payload

/-- Bytes after the fifth are ignored. -/
def decode : List UInt8 → Except Fault Operand
  | code :: tag :: high :: middle :: low :: _ =>
    match Mode.ofCode? code with
    | some mode => .ok ⟨mode, Word.decode ⟨tag, high, middle, low⟩⟩
    | none => .error (.invalidMode code)
  | bytes => .error (.truncatedStatement size bytes.length)

def encode (operand : Operand) : Except Fault (List UInt8) := do
  let word ← Word.encode operand.payload
  return operand.mode.code :: word.bytes

def read (operand : Operand) (registers : Registers) (ram : Memory) : Except Fault Int32 :=
  match operand.mode with
  | .register => registers.read operand.payload
  | .registerValue => do ram.readNumber (← registers.read operand.payload)
  | .pointer => ram.readNumber operand.payload
  | .constant => .ok operand.payload

/-- Where `value` would be written, or why it cannot be. -/
def destination (operand : Operand) (registers : Registers) (ram : Memory) (value : Int32) :
    Except Fault Destination :=
  match operand.mode with
  | .register => return .register (← registers.locate operand.payload)
  | .registerValue => do
    let (start, word) ← ram.placeNumber (← registers.read operand.payload) value
    return .ram start word
  | .pointer => do
    let (start, word) ← ram.placeNumber operand.payload value
    return .ram start word
  | .constant => .error .constantWrite

def write (operand : Operand) (registers : Registers) (ram : Memory) (value : Int32) :
    Except Fault (Registers × Memory) := do
  match ← operand.destination registers ram value with
  | .register slot => return (registers.put slot value, ram)
  | .ram start word => return (registers, ram.put start word.bytes)

theorem length_of_encode {operand : Operand} {bytes : List UInt8} (h : operand.encode = .ok bytes) :
    bytes.length = size := by
  unfold encode at h
  cases hw : Word.encode operand.payload with
  | error fault => simp [hw, bind, Except.bind] at h
  | ok word =>
    simp only [hw, bind, Except.bind, pure, Except.pure, Except.ok.injEq] at h
    subst h
    rfl

end Operand
end Microcomputer
