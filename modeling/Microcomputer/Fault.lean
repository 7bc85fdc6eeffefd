import Microcomputer.Text.Digits

/-! What can go wrong while a statement is decoded or executed, and how it is reported. -/
namespace Microcomputer

open Text

inductive Region
  | ram
  | disk
  deriving DecidableEq, Repr

def Region.name : Region → String
  | ram => "ram"
  | disk => "disk"

/-- The ways in which a console stream fails. -/
inductive StreamError
  | brokenPipe
  | permissionDenied
  | connectionReset
  | timedOut
  | wouldBlock
  | invalidData
  | unexpectedEof
  | writeZero
  | other
  deriving DecidableEq, Repr

def StreamError.name : StreamError → String
  | brokenPipe => "BrokenPipe"
  | permissionDenied => "PermissionDenied"
  | connectionReset => "ConnectionReset"
  | timedOut => "TimedOut"
  | wouldBlock => "WouldBlock"
  | invalidData => "InvalidData"
  | unexpectedEof => "UnexpectedEof"
  | writeZero => "WriteZero"
  | other => "Other"

inductive Fault
  | numberOutOfRange (value : Int32)
  | invalidOpcode (code : UInt8)
  | invalidCondition (code : UInt8)
  | invalidMode (code : UInt8)
  | constantWrite
  | registerOutOfRange (index : Int32) (available : Nat)
  | addressOutOfRange (region : Region) (address : Int) (size : Nat)
  | truncatedStatement (needed available : Nat)
  | invalidBranchTarget (target : Int32)
  | divisionByZero
  | depthExceeded (limit : Nat)
  | console (cause : StreamError)
  deriving DecidableEq, Repr

/-- A negative address is written as the 64-bit word that holds it in two's complement. -/
def hexAddress (address : Int) : String :=
  hex (UInt64.ofInt address).toNat

def Fault.message : Fault → String
  | numberOutOfRange value => s!"`{decimal value.toInt}` cannot be encoded as a machine number"
  | invalidOpcode code => s!"invalid opcode `0x{hexByte code}`"
  | invalidCondition code => s!"invalid condition `0x{hexByte code}`"
  | invalidMode code => s!"invalid addressing mode `0x{hexByte code}`"
  | constantWrite => "cannot set the value of a constant"
  | registerOutOfRange index available =>
    s!"register `{decimal index.toInt}` does not exist ({decimal available} available)"
  | addressOutOfRange region address size =>
    s!"{region.name} has no address `0x{hexAddress address}` (size 0x{hex size})"
  | truncatedStatement needed available =>
    s!"statement needs {decimal needed} bytes but only {decimal available} remain"
  | invalidBranchTarget target => s!"cannot branch to `{decimal target.toInt}`"
  | divisionByZero => "division by zero"
  | depthExceeded limit => s!"nested execution deeper than {decimal limit}"
  | console cause => s!"console failed: {cause.name}"

/-- A fault, with the offset of the statement that raised it and the depth of its stream. -/
structure Failure where
  fault : Fault
  position : Nat
  depth : Nat
  deriving DecidableEq, Repr

def Failure.message (failure : Failure) : String :=
  s!"error [pos: 0x{hex failure.position}, depth: {decimal failure.depth}]: {failure.fault.message}"

end Microcomputer
