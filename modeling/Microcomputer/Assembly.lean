import Microcomputer.Assembly.Draft
import Microcomputer.Log

/-!
# The assembler

All lines are taken in first, then the label operands are filled in. No error stops the work: each one
is recorded, and the image counts only if there was none.
-/
namespace Microcomputer

open Text

namespace Assembly

inductive Event
  | noted (line : Nat) (note : Note)
  | rejected (diagnostic : Diagnostic)
  deriving DecidableEq, Repr

def Note.text : Note → String
  | numberLiteral => "Found number literal"
  | byteLiteral => "Found byte literal"
  | addressLabel => "Found address label"
  | padded address => s!"Address label `0x{hex address}`"
  | labelled name address => "Label " ++ Rejection.quoted name ++ s!" at 0x{hex address}"
  | statement instruction => s!"Found statement {instruction.name}"

def Event.record : Event → Record
  | noted line note => ⟨.debug, s!"[{decimal line}] {note.text}"⟩
  | rejected diagnostic => ⟨.error, diagnostic.message⟩

end Assembly

open Assembly

/-- The work on a source: its draft, and what was reported and rejected, in order. -/
structure Assembly where
  draft : Draft
  events : Array Assembly.Event
  diagnostics : Array Diagnostic
  deriving DecidableEq, Repr

namespace Assembly

def start : Assembly :=
  ⟨.empty, #[], #[]⟩

def reject (assembly : Assembly) (line : Nat) (rejection : Rejection) : Assembly :=
  let diagnostic := ⟨line, rejection⟩
  { assembly with
    events := assembly.events.push (.rejected diagnostic)
    diagnostics := assembly.diagnostics.push diagnostic }

def report (assembly : Assembly) (line : Nat) (notes : List Note) : Assembly :=
  { assembly with events := assembly.events ++ notes.map (Event.noted line) }

/-- Takes in one line, given with its number. -/
def enter (assembly : Assembly) (numbered : List Char × Nat) : Assembly :=
  let (text, line) := numbered
  let reading := (Line.ofText text).read
  let assembly := assembly.report line reading.notes
  match reading.outcome with
  | .error rejection => assembly.reject line rejection
  | .ok item =>
    match assembly with
    | ⟨draft, events, diagnostics⟩ =>
      let (draft, notes, rejection?) := draft.add line item
      let assembly := (⟨draft, events, diagnostics⟩ : Assembly).report line notes
      match rejection? with
      | none => assembly
      | some rejection => assembly.reject line rejection

def ofLines (lines : List (List Char)) : Assembly :=
  (lines.zipIdx 1).foldl enter start

/-- Fills in the word of one label operand. -/
def resolve (assembly : Assembly) (reference : Reference) : Assembly :=
  match assembly.draft.addressWord reference.label with
  | .error rejection => assembly.reject reference.line rejection
  | .ok word =>
    match assembly with
    | ⟨⟨image, labels, references⟩, events, diagnostics⟩ =>
      ⟨⟨image.overlay reference.offset word.bytes, labels, references⟩, events, diagnostics⟩

def resolveAll (assembly : Assembly) : Assembly :=
  assembly.draft.references.foldl resolve assembly

def ofSource (source : String) : Assembly :=
  (ofLines (lines source.toList)).resolveAll

/-- The image, if nothing was rejected. -/
def result (assembly : Assembly) : Except (List Diagnostic) Bytes :=
  if assembly.diagnostics.isEmpty then .ok assembly.draft.image
  else .error assembly.diagnostics.toList

end Assembly

def assemble (source : String) : Except (List Assembly.Diagnostic) Bytes :=
  (Assembly.ofSource source).result

end Microcomputer
