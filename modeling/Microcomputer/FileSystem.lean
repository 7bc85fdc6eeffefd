import Microcomputer.Bytes
import Microcomputer.Log
import Microcomputer.Text.Blank
import Microcomputer.Text.Digits

/-!
# Files

A tree of directories and files, with a root and a working directory. A path is walked name by name,
from the root if it begins with a slash and else from the working directory, and every name but the last
must be that of a directory. The host may refuse to open a file, for reading or for writing; it does so
before it touches the file.
-/
namespace Microcomputer

open Text

inductive Node
  | file (bytes : Bytes)
  | directory
  deriving DecidableEq, Repr

/-- What a file is opened for. -/
inductive Access
  | read
  | write
  deriving DecidableEq, Repr

/-- Why a host does not open a file. -/
inductive Refusal
  | permissionDenied
  | readOnly
  deriving DecidableEq, Repr

def Refusal.message : Refusal → String
  | permissionDenied => "Permission denied (os error 13)"
  | readOnly => "Read-only file system (os error 30)"

inductive FileError
  | nulInPath
  | nameTooLong
  | notFound
  | notADirectory
  | isADirectory
  | refused (refusal : Refusal)
  deriving DecidableEq, Repr

def FileError.message : FileError → String
  | nulInPath => "file name contained an unexpected NUL byte"
  | nameTooLong => "File name too long (os error 36)"
  | notFound => "No such file or directory (os error 2)"
  | notADirectory => "Not a directory (os error 20)"
  | isADirectory => "Is a directory (os error 21)"
  | refused refusal => refusal.message

/-- Where the walk of a path begins. -/
inductive Origin
  | root
  | working
  deriving DecidableEq, Repr

/--
The names on the way from the origin, innermost first. Each step out of the working directory is a name
`..` at the far end; there is no way out of the root.
-/
structure Location where
  origin : Origin
  names : List (List Char)
  deriving DecidableEq, Repr

namespace Location

def parent : Location → Location
  | ⟨.root, names⟩ => ⟨.root, names.tail⟩
  | ⟨.working, []⟩ => ⟨.working, [['.', '.']]⟩
  | ⟨.working, name :: outer⟩ =>
    if name = ['.', '.'] then ⟨.working, name :: name :: outer⟩ else ⟨.working, outer⟩

def child (location : Location) (name : List Char) : Location :=
  { location with names := name :: location.names }

/-- The most bytes that a name may have. -/
def maxNameBytes : Nat := 255

/-- Whether the innermost name is too long for any directory to hold it. -/
def hasLongName (location : Location) : Bool :=
  location.names.head?.any fun name => maxNameBytes < (String.ofList name).utf8ByteSize

end Location

structure FileSystem where
  node? : Location → Option Node
  /-- Why the host would not open the file at a location. -/
  refusal? : Access → Location → Option Refusal := fun _ _ => none

namespace FileSystem

/-- The directories that a host keeps at its root. -/
def rootDirectories : List String :=
  ["bin", "boot", "dev", "etc", "home", "lib", "media", "mnt", "opt", "proc", "root", "run", "sbin",
   "srv", "sys", "tmp", "usr", "var"]

/-- Whether a bare tree has a directory here. -/
def bareDirectory : Location → Bool
  | ⟨.working, names⟩ => names.all (· == ['.', '.'])
  | ⟨.root, []⟩ => true
  | ⟨.root, [name]⟩ => rootDirectories.contains (String.ofList name)
  | ⟨.root, _⟩ => false

/-- No file: the working directory and the directories around it, the root and the host's own directories. -/
def bare : FileSystem where
  node? location := if bareDirectory location then some .directory else none

def put (files : FileSystem) (location : Location) (node : Node) : FileSystem :=
  { files with node? := fun other => if other = location then some node else files.node? other }

/-- From now on the host does not open the file at `location` for `access`. -/
def refuse (files : FileSystem) (access : Access) (location : Location) (refusal : Refusal) :
    FileSystem :=
  { files with refusal? := fun asked other =>
      if asked = access ∧ other = location then some refusal else files.refusal? asked other }

/-- Opens the file at a location, or is refused. -/
def openFor (files : FileSystem) (access : Access) (location : Location) : Except FileError Unit :=
  match files.refusal? access location with
  | some refusal => .error (.refused refusal)
  | none => .ok ()

/-- What is at a location, if anything may be there. -/
def look (files : FileSystem) (location : Location) : Except FileError (Option Node) :=
  if location.hasLongName then .error .nameTooLong else .ok (files.node? location)

def origin (path : String) : Location :=
  ⟨if path.toList.head? = some '/' then .root else .working, []⟩

def names (path : String) : List (List Char) :=
  (split (· == '/') path.toList).filter fun name => !name.isEmpty

/-- The location of `name` in the directory at `location`, which must be there. -/
def enter (files : FileSystem) (location : Location) (name : List Char) : Except FileError Location := do
  match ← files.look location with
  | none => .error .notFound
  | some (.file _) => .error .notADirectory
  | some .directory =>
    if name = ['.'] then .ok location
    else if name = ['.', '.'] then .ok location.parent
    else .ok (location.child name)

/-- The most bytes that a path may have. -/
def maxPathBytes : Nat := 4095

/-- Where a path leads; its last name need not be there. An empty path leads nowhere. -/
def locate (files : FileSystem) (path : String) : Except FileError Location :=
  if path.toList.contains '\x00' then .error .nulInPath
  else if path = "" then .error .notFound
  else if maxPathBytes < path.utf8ByteSize then .error .nameTooLong
  else (names path).foldlM files.enter (origin path)

/-- A path that ends in a slash asks for a directory. -/
def asksDirectory (path : String) : Bool :=
  path.toList.getLast? = some '/'

def read (files : FileSystem) (path : String) : Except FileError Bytes := do
  let location ← files.locate path
  match ← files.look location with
  | none => .error .notFound
  | some .directory => .error .isADirectory
  | some (.file bytes) =>
    if asksDirectory path then
      .error .notADirectory
    else
      files.openFor .read location
      return bytes

/-- Replaces the whole file, or creates it; the file of a refused write is left alone. -/
def write (files : FileSystem) (path : String) (bytes : Bytes) : Except FileError FileSystem := do
  let location ← files.locate path
  if asksDirectory path then
    .error .isADirectory
  else
    match ← files.look location with
    | some .directory => .error .isADirectory
    | some (.file _) | none =>
      files.openFor .write location
      return files.put location (.file bytes)

/-- Creates the directories on a path that are not there yet, and leaves the rest alone. -/
def makeDirectories (files : FileSystem) (path : String) : FileSystem :=
  let create (state : FileSystem × Location) (name : List Char) : FileSystem × Location :=
    let (files, location) := state
    match files.enter location name with
    | .error _ => (files, location)
    | .ok inner =>
      match files.look inner with
      | .ok none => (files.put inner .directory, inner)
      | _ => (files, inner)
  ((names path).foldl create (files, origin path)).1

@[simp]
theorem node?_put_self (files : FileSystem) (location : Location) (node : Node) :
    (files.put location node).node? location = some node := by
  simp [put]

theorem node?_put_of_ne {files : FileSystem} {location other : Location} {node : Node}
    (h : other ≠ location) : (files.put location node).node? other = files.node? other := by
  simp [put, h]

end FileSystem

inductive FilePurpose
  | loadBios
  | loadDisk
  | persistDisk
  deriving DecidableEq, Repr

/-- A file operation that failed, with what it was for. -/
structure FileFailure where
  purpose : FilePurpose
  path : String
  cause : FileError
  deriving DecidableEq, Repr

def FilePurpose.complaint : FilePurpose → String
  | loadBios => "Failed to load bios"
  | loadDisk => "Failed to initialize hard disk"
  | persistDisk => "Failed to write hard disk"

/-- The failure and its cause, outermost first. -/
def FileFailure.chain (failure : FileFailure) : List String :=
  [failure.purpose.complaint ++ s!" `{failure.path}`", failure.cause.message]

/-- The record of a file operation that succeeded on `size` bytes. -/
def FilePurpose.record (purpose : FilePurpose) (size : Nat) (path : String) : Record :=
  let size := decimal size
  match purpose with
  | loadBios => ⟨.info, s!"Loaded {size} bytes of bios from `{path}`"⟩
  | loadDisk => ⟨.info, s!"Loaded {size} bytes from disk `{path}`"⟩
  | persistDisk => ⟨.info, s!"Persisted {size} bytes to disk `{path}`"⟩

end Microcomputer
