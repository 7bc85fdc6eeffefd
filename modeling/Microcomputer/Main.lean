import Microcomputer.Boot

/-!
# The command line

Boots the machine of the standard settings from the files of the working directory, with its console
on the standard streams. Warnings and errors are shown among what the console writes.
-/
namespace Microcomputer.Main

/-- The code of the host's error for a file system that takes no writes. -/
def readOnlyCode : UInt32 := 30

def refusalOf (code : UInt32) : Refusal :=
  if code = readOnlyCode then .readOnly else .permissionDenied

/-- Adds what the host has at a path, as far as the machine has to tell nodes apart. -/
def mirror (files : FileSystem) (path : String) : IO FileSystem := do
  let .ok location := files.locate path | return files
  try
    return files.put location (.file (← IO.FS.readBinFile path).data)
  catch
    | .noFileOrDirectory .. => return files
    | .permissionDenied _ code _ =>
      return (files.put location (.file #[])).refuse .read location (refusalOf code)
    | _ => return files.put location .directory

def filesAt (paths : List String) : IO FileSystem :=
  paths.foldlM mirror FileSystem.bare

/-- Writes the disk to the host's file, and notes in the tree if the host refuses. -/
def persist (files : FileSystem) (disk : Disk) : IO FileSystem := do
  let .ok location := files.locate disk.path | return files
  try
    IO.FS.writeBinFile disk.path ⟨disk.buffer.bytes⟩
    return files
  catch
    | .permissionDenied _ code _ => return files.refuse .write location (refusalOf code)
    | error => throw error

def shows (level : Level) : Bool :=
  Level.warn.keptAt level

def report (records : List Record) : IO Unit :=
  for record in records do
    if shows record.level then
      IO.println record.line

/-- One more byte for a statement that is about to read from an empty console. -/
def supply (engine : Engine) : IO Engine := do
  if engine.awaitsInput then
    (← IO.getStdout).flush
    let bytes ← (← IO.getStdin).read 1
    let machine := engine.session.machine
    let console := { machine.console with input := bytes.data.toList }
    return { engine with session := { engine.session with machine := { machine with console } } }
  else
    return engine

/-- Shows what the console holds and what was reported, and takes both off the engine. -/
def drain (engine : Engine) : IO Engine := do
  let ⟨⟨machine, events⟩, base, frames, failure⟩ := engine
  let console := machine.console
  unless console.output.isEmpty do
    (← IO.getStdout).write ⟨console.output⟩
  report ((events.toList.filter fun event => shows event.level).map Event.record)
  let machine := { machine with console := { console with output := #[] } }
  return ⟨⟨machine, #[]⟩, base, frames, failure⟩

partial def settle (engine : Engine) : IO Engine := do
  if engine.done then
    return engine
  else
    settle (← drain (← supply engine).step)

def conclude (outcome : Boot.Outcome) : IO UInt32 := do
  report outcome.log
  match outcome.result with
  | .ok () => return 0
  | .error error =>
    for message in error.chain do
      IO.eprintln message
    return 1

def boot : IO UInt32 := do
  let config := Config.standard
  let files ← filesAt [config.biosPath, config.diskPath]
  let (loaded, result) := Boot.load config files
  match result with
  | .error error => conclude (Boot.refused files loaded error)
  | .ok (bios, disk) =>
    let final ← settle (Boot.engine config (.ofInput []) bios disk)
    let files ← persist files final.session.machine.disk
    conclude (Boot.finish files loaded final)

end Microcomputer.Main

def main : IO UInt32 :=
  Microcomputer.Main.boot
