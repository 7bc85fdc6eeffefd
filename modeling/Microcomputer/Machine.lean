import Microcomputer.Config
import Microcomputer.Console
import Microcomputer.Disk
import Microcomputer.Log
import Microcomputer.Statement

/-! The machine, what it reports while it runs, and the two together. -/
namespace Microcomputer

open Text

structure Machine where
  registers : Registers
  ram : Memory
  disk : Disk
  console : Console
  maxDepth : Nat
  deriving DecidableEq, Repr

def Machine.ofConfig (config : Config) (disk : Disk) (console : Console) : Machine where
  registers := .zeros config.registers
  ram := .zeros .ram config.ramSize
  disk := disk
  console := console
  maxDepth := config.maxDepth

inductive Event
  | executed (depth offset : Nat) (statement : Statement)
  | skipped (depth offset : Nat) (instruction : Instruction) (condition : Condition) (compare : Int32)
  | computed (a b result : Int32)
  | copied (length destination : Int32)
  | inputExhausted
  | entered (depth start stop : Nat)
  | halted (depth offset : Nat)
  | exhausted (depth size : Nat)
  | failed (failure : Failure)
  deriving DecidableEq, Repr

namespace Event

def level : Event → Level
  | skipped .. => .trace
  | inputExhausted => .warn
  | failed _ => .error
  | executed .. | computed .. | copied .. | entered .. | halted .. | exhausted .. => .debug

def text : Event → String
  | executed depth offset statement => s!"[{decimal depth}] 0x{hex offset}: {statement.text}"
  | skipped depth offset instruction condition compare =>
    let compare := decimal compare.toInt
    s!"[{decimal depth}] 0x{hex offset}: skip {instruction.name} ({condition.name}, compare {compare})"
  | computed a b result => s!"  {decimal a.toInt} {decimal b.toInt}: {decimal result.toInt}"
  | copied length destination =>
    s!"  {decimal length.toInt} bytes to ram 0x{hex destination.toInt.toNat}"
  | inputExhausted => "Console input exhausted"
  | entered depth start stop =>
    s!"[{decimal depth}] Executing ram 0x{hex start}..0x{hex stop}"
  | halted depth offset => s!"[{decimal depth}] Halted at 0x{hex offset}"
  | exhausted depth size => s!"[{decimal depth}] Exhausted after 0x{hex size} bytes"
  | failed failure => failure.message

def record (event : Event) : Record :=
  ⟨event.level, event.text⟩

end Event

/-- A machine, with the events of its run so far in order. -/
structure Session where
  machine : Machine
  events : Array Event
  deriving DecidableEq, Repr

namespace Session

def ofMachine (machine : Machine) : Session :=
  ⟨machine, #[]⟩

@[inline]
def note (session : Session) (event : Event) : Session :=
  { session with events := session.events.push event }

end Session
end Microcomputer
