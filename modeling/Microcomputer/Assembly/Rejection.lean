import Microcomputer.Instruction

/-! Why a source does not assemble, and how each reason is worded. -/
namespace Microcomputer.Assembly

open Text

/-- What a number in a source is for. -/
inductive NumberUse
  | literal
  | address
  | operand
  deriving DecidableEq, Repr

inductive Rejection
  | malformedNumber (radix : Nat) (text : List Char)
  | missingNumber (use : NumberUse)
  | numberOutOfRange (use : NumberUse) (text : List Char)
  | addressTooLarge (address : Nat)
  | addressPassed (address written : Nat)
  | unknownInstruction (name : List Char)
  | unknownCondition (suffix : List Char)
  | arityMismatch (instruction : Instruction) (found : Nat)
  | invalidLabel (name : List Char)
  | duplicateLabel (name : List Char)
  | unknownLabel (name : List Char)
  | unencodable (fault : Fault)
  | unencodableLabel (name : List Char) (fault : Fault)
  deriving DecidableEq, Repr

def NumberUse.complaint : NumberUse → String
  | literal => "invalid literal"
  | address => "invalid address label"
  | operand => "invalid operand"

namespace Rejection

def quoted (text : List Char) : String :=
  "`" ++ String.ofList text ++ "`"

/-- What is wrong, without the text that it is about. -/
inductive Kind
  | malformedNumber (radix : Nat)
  | unusable (use : NumberUse)
  | invalidAddress (address : Nat)
  | unknownInstruction
  | unknownCondition
  | arityMismatch (expected found : Nat)
  | duplicateLabel
  | unknownLabel
  | unencodable (fault : Fault)
  deriving DecidableEq, Repr

def Kind.summary : Kind → String
  | malformedNumber radix => s!"failed to parse number with radix `{decimal radix}`"
  | unusable use => use.complaint
  | invalidAddress address => s!"invalid address `0x{hex address}`"
  | unknownInstruction => "failed to resolve instruction"
  | unknownCondition => "failed to resolve condition"
  | arityMismatch expected found => s!"expected {decimal expected} operands, found {decimal found}"
  | duplicateLabel => "label defined twice"
  | unknownLabel => "label is never defined"
  | unencodable fault => fault.message

def kind : Rejection → Kind
  | malformedNumber radix _ => .malformedNumber radix
  | missingNumber use | numberOutOfRange use _ => .unusable use
  | addressTooLarge address | addressPassed address _ => .invalidAddress address
  | unknownInstruction _ => .unknownInstruction
  | unknownCondition _ => .unknownCondition
  | arityMismatch instruction found => .arityMismatch instruction.arity found
  | invalidLabel _ => .unusable .address
  | duplicateLabel _ => .duplicateLabel
  | unknownLabel _ => .unknownLabel
  | unencodable fault | unencodableLabel _ fault => .unencodable fault

/-- The wording of the kind of the rejection. -/
def summary (rejection : Rejection) : String :=
  rejection.kind.summary

/-- What the rejection is about, where the kind does not say it all. -/
def detail? : Rejection → Option String
  | malformedNumber _ text => some (quoted text)
  | missingNumber _ => some "a number needs to be set"
  | numberOutOfRange _ text => some (quoted text ++ " is out of range")
  | addressTooLarge _ => some s!"offsets above 0x{hex 0xFFFF} cannot be encoded"
  | addressPassed _ written => some s!"{decimal written} bytes were already written"
  | unknownInstruction name => some ("no instruction named " ++ quoted name)
  | unknownCondition suffix => some (quoted suffix)
  | arityMismatch instruction _ => some ("for " ++ quoted instruction.name.toList)
  | invalidLabel name | duplicateLabel name | unknownLabel name => some (quoted name)
  | unencodable _ => none
  | unencodableLabel name _ => some ("address of " ++ quoted name)

end Rejection

/-- A rejection and the line it concerns, counted from one. -/
structure Diagnostic where
  line : Nat
  rejection : Rejection
  deriving DecidableEq, Repr

def Diagnostic.message (diagnostic : Diagnostic) : String :=
  let front := s!"error [ln: {decimal diagnostic.line}]: {diagnostic.rejection.summary}"
  match diagnostic.rejection.detail? with
  | some detail => front ++ " - " ++ detail
  | none => front

end Microcomputer.Assembly
