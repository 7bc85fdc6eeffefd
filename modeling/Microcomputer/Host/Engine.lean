import Microcomputer.Host.Access

/-!
# The engine on a host

How a host executes statements and runs the engine. A trap stops it for good, and no step follows one.
-/
namespace Microcomputer.Host

/-- Execution on a host keeps the session when it halts. -/
abbrev Hosted := EStateM Halt Session

namespace Hosted

def observe {α : Type} (look : Machine → Except Halt α) : Hosted α := fun session =>
  match look session.machine with
  | .ok value => .ok value session
  | .error halt => .error halt session

def note (event : Event) : Hosted Unit := fun session =>
  .ok () (session.note event)

def alter (change : Machine → Except Halt Machine) : Hosted Unit := fun session =>
  match change session.machine with
  | .ok machine => .ok () { session with machine }
  | .error halt => .error halt session

/-- What does not depend on the machine. -/
def compute {α : Type} (answer : Except Halt α) : Hosted α :=
  observe fun _ => answer

def load (operand : Operand) : Hosted Int32 :=
  observe fun machine => readOperand operand machine.registers machine.ram

def store (operand : Operand) (value : Int32) : Hosted Unit :=
  alter fun machine => do
    let (registers, ram) ← writeOperand operand machine.registers machine.ram value
    return { machine with registers, ram }

def receive : Hosted Int32 := do
  match ← observe fun machine => .ok machine.console.input with
  | byte :: rest =>
    alter fun machine => .ok { machine with console := { machine.console with input := rest } }
    return Int32.ofNat byte.toNat
  | [] =>
    observe fun machine => lift (machine.console.atEnd.mapError .console)
    note .inputExhausted
    return -1

def send (value : Int32) : Hosted Unit :=
  alter fun machine =>
    if machine.console.hasRoom then
      .ok { machine with console := machine.console.push value.toUInt32.toUInt8 }
    else
      refuse (.console machine.console.writeError)

def setCompare (value : Int32) : Hosted Unit :=
  alter fun machine => .ok { machine with registers := { machine.registers with compare := value } }

def readDisk (offset : Int32) : Hosted Int32 :=
  observe fun machine => readNumber machine.disk.buffer offset

def writeDisk (offset value : Int32) : Hosted Unit :=
  alter fun machine => do
    let buffer ← writeNumber machine.disk.buffer offset value
    return { machine with disk := { machine.disk with buffer } }

def copyFromDisk (source destination length : Int32) : Hosted Unit := do
  alter fun machine => do
    if source < 0 ∨ length < 0 then
      refuse (machine.disk.buffer.outOfRange (min source.toInt length.toInt))
    else if destination < 0 then
      refuse (machine.ram.outOfRange destination.toInt)
    else
      let data ← readArray machine.disk.buffer (← sizeOf source) (← sizeOf length)
      let ram ← writeArray machine.ram (← sizeOf destination) data
      return { machine with ram }
  note (.copied length destination)

/-- Where a nested stream starts and how long it is; all of it can be read. -/
def nestedRange (machine : Machine) (offset length : Int32) (depth : Nat) :
    Except Halt (Nat × Nat) :=
  if machine.maxDepth ≤ depth then
    refuse (.depthExceeded machine.maxDepth)
  else if offset < 0 ∨ length < 0 then
    let address := if offset < 0 then offset.toInt else offset.toInt + length.toInt
    refuse (machine.ram.outOfRange address)
  else do
    let start ← sizeOf offset
    let length ← sizeOf length
    let _ ← readArray machine.ram start length
    return (start, length)

def enter (offset length : Int32) (depth resume : Nat) : Hosted Transfer := do
  if length = 0 then
    return .goto resume
  else
    let (start, length) ← observe fun machine => nestedRange machine offset length depth
    let inner ← compute (size (depth + 1))
    let stop ← compute (size (start + length))
    note (.entered inner start stop)
    return .call start length resume

end Hosted

open Hosted

/-- The division of the host is never asked for a quotient by zero. -/
def apply (operation : Arithmetic) (a b : Int32) : Except Halt Int32 :=
  match operation with
  | .divide => if b = 0 then refuse .divisionByZero else quotient a b
  | .remainder => if b = 0 then refuse .divisionByZero else remainder a b
  | .add | .subtract | .multiply | .bitAnd | .bitOr | .bitXor => lift (operation.apply a b)

/-- Operands are looked up by their slots. -/
def perform (statement : Statement) (next depth : Nat) : Hosted Transfer := do
  let slot (i : Nat) : Hosted Operand := compute (index statement.operands i)
  match statement.instruction with
  | .move =>
    let value ← load (← slot 0)
    store (← slot 1) value
    return .goto next
  | .compute operation =>
    let a ← load (← slot 0)
    let b ← load (← slot 1)
    let result ← compute (apply operation a b)
    store (← slot 2) result
    note (.computed a b result)
    return .goto next
  | .receive =>
    let value ← receive
    store (← slot 0) value
    return .goto next
  | .send =>
    send (← load (← slot 0))
    return .goto next
  | .compare =>
    let a ← load (← slot 0)
    let b ← load (← slot 1)
    setCompare (a - b)
    note (.computed a b (a - b))
    return .goto next
  | .branch =>
    let target ← load (← slot 0)
    if target < 0 then
      throw (.fault (.invalidBranchTarget target))
    else
      return .goto (← compute (sizeOf target))
  | .diskRead =>
    let offset ← load (← slot 0)
    let value ← readDisk offset
    store (← slot 1) value
    return .goto next
  | .diskWrite =>
    let value ← load (← slot 0)
    let offset ← load (← slot 1)
    writeDisk offset value
    return .goto next
  | .execute =>
    let offset ← load (← slot 0)
    let length ← load (← slot 1)
    enter offset length depth next
  | .stop => return .leave
  | .diskLoad =>
    let source ← load (← slot 0)
    let destination ← load (← slot 1)
    let length ← load (← slot 2)
    copyFromDisk source destination length
    return .goto next

def executeAt (code : Code) (offset depth : Nat) : Hosted Transfer := do
  match ← observe (upcoming code offset) with
  | (.execute statement, next) =>
    note (.executed depth offset statement)
    perform statement next depth
  | (.skip instruction condition, next) =>
    let compare ← observe fun machine => .ok machine.registers.compare
    note (.skipped depth offset instruction condition compare)
    return .goto next

/-- A step of the engine, or the trap that it meets. -/
def step : Engine → Except Trap Engine
  | ⟨session, base, frame :: outer, none⟩ =>
    let depth := base + outer.length
    if frame.offset < frame.code.size then
      match executeAt frame.code frame.offset depth session with
      | .ok (.goto offset) session => .ok ⟨session, base, ⟨frame.code, offset⟩ :: outer, none⟩
      | .ok (.call start length resume) session =>
        .ok ⟨session, base, ⟨.ram start length, 0⟩ :: ⟨frame.code, resume⟩ :: outer, none⟩
      | .ok .leave session =>
        .ok ⟨session.note (.halted depth frame.offset), base, outer, none⟩
      | .error (.fault fault) session =>
        .ok (.fail session base (frame :: outer) fault frame.offset depth)
      | .error (.trap trap) _ => .error trap
    else
      .ok ⟨session.note (.exhausted depth frame.code.size), base, outer, none⟩
  | engine => .ok engine

def steps : Nat → Engine → Except Trap Engine
  | 0, engine => .ok engine
  | count + 1, engine => do steps count (← step engine)

/-- One statement executed on its own, or the trap that it meets. -/
def ofStatement (session : Session) (code : Code) (offset : Nat) : Except Trap (Engine × Flow) :=
  match executeAt code offset 0 session with
  | .ok (.goto next) session => .ok (⟨session, 1, [], none⟩, .goto next)
  | .ok (.call start length resume) session =>
    .ok (⟨session, 1, [⟨.ram start length, 0⟩], none⟩, .goto resume)
  | .ok .leave session => .ok (⟨session, 1, [], none⟩, .halt)
  | .error (.fault fault) session => .ok (.fail session 1 [] fault offset 0, .halt)
  | .error (.trap trap) _ => .error trap

end Microcomputer.Host
