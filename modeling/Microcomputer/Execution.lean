import Microcomputer.Machine

/-!
# Executing one statement

A statement reads its operands in a fixed order, checks everything that can fail, and only then
changes the machine. A fault therefore leaves it as it was, but for a console byte already read.
-/
namespace Microcomputer

/-- Where control goes after a statement. -/
inductive Transfer
  | goto (offset : Nat)
  /-- Run a range of RAM, then go on at `resume`. -/
  | call (start length resume : Nat)
  /-- End the stream. -/
  | leave
  deriving DecidableEq, Repr

/-- Execution keeps the session when a fault ends it. -/
abbrev Execution := EStateM Fault Session

namespace Execution

@[inline]
def observe {α : Type} (look : Machine → Except Fault α) : Execution α := fun session =>
  match look session.machine with
  | .ok value => .ok value session
  | .error fault => .error fault session

@[inline]
def note (event : Event) : Execution Unit := fun session =>
  .ok () (session.note event)

@[inline]
def update (change : Machine → Machine) : Execution Unit := fun session =>
  .ok () { session with machine := change session.machine }

def load (operand : Operand) : Execution Int32 :=
  observe fun machine => operand.read machine.registers machine.ram

def store (operand : Operand) (value : Int32) : Execution Unit := do
  match ← observe fun machine => operand.destination machine.registers machine.ram value with
  | .register slot =>
    update fun machine => { machine with registers := machine.registers.put slot value }
  | .ram start word =>
    update fun machine => { machine with ram := machine.ram.put start word.bytes }

/-- The next byte of the console, `-1` once there is none. -/
def receive : Execution Int32 := do
  match ← observe fun machine => .ok machine.console.input with
  | byte :: rest =>
    update fun machine => { machine with console := { machine.console with input := rest } }
    return Int32.ofNat byte.toNat
  | [] =>
    observe fun machine => machine.console.atEnd.mapError .console
    note .inputExhausted
    return -1

/-- Writes the low byte of a value. -/
def send (value : Int32) : Execution Unit := do
  observe fun machine =>
    if machine.console.hasRoom then .ok () else .error (.console machine.console.writeError)
  update fun machine => { machine with console := machine.console.push value.toUInt32.toUInt8 }

def setCompare (value : Int32) : Execution Unit :=
  update fun machine => { machine with registers := { machine.registers with compare := value } }

def readDisk (offset : Int32) : Execution Int32 :=
  observe fun machine => machine.disk.buffer.readNumber offset

def writeDisk (offset value : Int32) : Execution Unit := do
  let (start, word) ← observe fun machine => machine.disk.buffer.placeNumber offset value
  update fun machine =>
    { machine with disk := { machine.disk with buffer := machine.disk.buffer.put start word.bytes } }

/-- What a copy of `length` bytes from the disk would lay down, and where in RAM it starts. -/
def copySpan (machine : Machine) (source destination length : Int32) :
    Except Fault (Nat × List UInt8) := do
  if source < 0 ∨ length < 0 then
    .error (machine.disk.buffer.outOfRange (min source.toInt length.toInt))
  else if destination < 0 then
    .error (machine.ram.outOfRange destination.toInt)
  else
    let data ← machine.disk.buffer.load source.toInt length.toInt.toNat
    let start ← machine.ram.locate destination.toInt data.length
    return (start, data)

/-- Copies bytes as they are, whether or not they are words. -/
def copyFromDisk (source destination length : Int32) : Execution Unit := do
  let (start, data) ← observe fun machine => copySpan machine source destination length
  update fun machine => { machine with ram := machine.ram.put start data }
  note (.copied length destination)

/-- Where a nested stream of `length` bytes starts; an empty one is not asked for. -/
def nestedStart (machine : Machine) (offset length : Int32) (depth : Nat) : Except Fault Nat :=
  if machine.maxDepth ≤ depth then
    .error (.depthExceeded machine.maxDepth)
  else if offset < 0 then
    .error (machine.ram.outOfRange offset.toInt)
  else if length < 0 then
    .error (machine.ram.outOfRange (offset.toInt + length.toInt))
  else
    machine.ram.locate offset.toInt length.toInt.toNat

/-- A nested stream of length zero is passed over. -/
def enter (offset length : Int32) (depth resume : Nat) : Execution Transfer := do
  if length = 0 then
    return .goto resume
  else
    let start ← observe fun machine => nestedStart machine offset length depth
    let length := length.toInt.toNat
    note (.entered (depth + 1) start (start + length))
    return .call start length resume

end Execution

open Execution

/-- Executes a statement whose condition holds; `next` is the offset after it. -/
def Statement.perform (statement : Statement) (next depth : Nat) : Execution Transfer :=
  match statement with
  | ⟨.move, _, [source, target], _⟩ => do
    store target (← load source)
    return .goto next
  | ⟨.compute operation, _, [left, right, target], _⟩ => do
    let a ← load left
    let b ← load right
    let result ← observe fun _ => operation.apply a b
    store target result
    note (.computed a b result)
    return .goto next
  | ⟨.receive, _, [target], _⟩ => do
    store target (← receive)
    return .goto next
  | ⟨.send, _, [source], _⟩ => do
    send (← load source)
    return .goto next
  | ⟨.compare, _, [left, right], _⟩ => do
    let a ← load left
    let b ← load right
    setCompare (a - b)
    note (.computed a b (a - b))
    return .goto next
  | ⟨.branch, _, [target], _⟩ => do
    let offset ← load target
    if offset < 0 then
      throw (.invalidBranchTarget offset)
    else
      return .goto offset.toInt.toNat
  | ⟨.diskRead, _, [offset, target], _⟩ => do
    store target (← readDisk (← load offset))
    return .goto next
  | ⟨.diskWrite, _, [source, offset], _⟩ => do
    let value ← load source
    writeDisk (← load offset) value
    return .goto next
  | ⟨.execute, _, [offset, length], _⟩ => do
    let start ← load offset
    enter start (← load length) depth next
  | ⟨.stop, _, [], _⟩ => return .leave
  | ⟨.diskLoad, _, [source, target, length], _⟩ => do
    let source ← load source
    let target ← load target
    copyFromDisk source target (← load length)
    return .goto next

end Microcomputer
