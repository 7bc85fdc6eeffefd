import Microcomputer.Fault

/-!
# The console

The bytes still to be read and the bytes written so far. After its last byte the input ends, or fails
if a read error is set; the output takes bytes up to its capacity and then fails.
-/
namespace Microcomputer

structure Console where
  input : List UInt8
  readError : Option StreamError
  output : Array UInt8
  capacity : Option Nat
  writeError : StreamError
  flushError : Option StreamError
  deriving DecidableEq, Repr

namespace Console

/-- No stream error, and room for every byte written. -/
def ofInput (input : List UInt8) : Console where
  input := input
  readError := none
  output := #[]
  capacity := none
  writeError := .writeZero
  flushError := none

/-- What reading gives once no byte is left; an unexpected end is an end. -/
def atEnd (console : Console) : Except StreamError Unit :=
  match console.readError with
  | none | some .unexpectedEof => .ok ()
  | some error => .error error

def hasRoom (console : Console) : Bool :=
  match console.capacity with
  | none => true
  | some capacity => console.output.size < capacity

@[inline]
def push (console : Console) (byte : UInt8) : Console :=
  { console with output := console.output.push byte }

def flush (console : Console) : Except StreamError Unit :=
  match console.flushError with
  | none => .ok ()
  | some error => .error error

end Console
end Microcomputer
