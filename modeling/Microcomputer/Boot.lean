import Microcomputer.Engine

/-!
# Booting

The bios is loaded and run, and the disk buffer is written back to its file whether or not the run
failed. The bios file is never written.
-/
namespace Microcomputer

inductive BootError
  | files (failure : FileFailure)
  | execution (failure : Failure)
  deriving DecidableEq, Repr

namespace BootError

/-- The error and its causes, outermost first. -/
def chain : BootError → List String
  | files failure => failure.chain
  | execution failure => ["Bios execution failed", failure.message]

/-- The failure of a statement, if that is the cause. -/
def failure? : BootError → Option Failure
  | files _ => none
  | execution failure => some failure

end BootError

namespace Boot

def loadBios (files : FileSystem) (path : String) : Except FileFailure Bytes :=
  match files.read path with
  | .error cause => .error ⟨.loadBios, path, cause⟩
  | .ok bytes => .ok bytes

/-- Loads the bios and then the disk, and stops at the first that cannot be read. -/
def load (config : Config) (files : FileSystem) :
    List Record × Except BootError (Bytes × Disk) :=
  match loadBios files config.biosPath with
  | .error failure => ([], .error (.files failure))
  | .ok bios =>
    let loadedBios := FilePurpose.loadBios.record bios.size config.biosPath
    match Disk.load files config.diskPath with
    | .error failure => ([loadedBios], .error (.files failure))
    | .ok disk => ([loadedBios, disk.record .loadDisk], .ok (bios, disk))

/-- The engine about to run the bios. -/
def engine (config : Config) (console : Console) (bios : Bytes) (disk : Disk) : Engine :=
  .ofImage (.ofMachine (.ofConfig config disk console)) bios

/-- What a boot leaves behind. -/
structure Outcome where
  log : List Record
  files : FileSystem
  output : Bytes
  result : Except BootError Unit

def refused (files : FileSystem) (log : List Record) (error : BootError) : Outcome :=
  ⟨log, files, #[], .error error⟩

/-- Writes the disk back once the engine has come to rest; a failure to write counts first. -/
def finish (files : FileSystem) (loaded : List Record) (final : Engine) : Outcome :=
  let machine := final.session.machine
  let ran := loaded ++ ⟨.info, "Booting"⟩ :: final.session.events.toList.map Event.record
  match machine.disk.persist files with
  | .error failure => ⟨ran, files, machine.console.output, .error (.files failure)⟩
  | .ok files =>
    let log := ran ++ [machine.disk.record .persistDisk]
    match final.result with
    | .error failure => ⟨log, files, machine.console.output, .error (.execution failure)⟩
    | .ok () => ⟨log ++ [⟨.info, "Machine halted"⟩], files, machine.console.output, .ok ()⟩

/-- Booting from `files` with `console` ends and leaves `outcome`. The bios may also run on forever. -/
def Ends (config : Config) (files : FileSystem) (console : Console) (outcome : Outcome) : Prop :=
  match load config files with
  | (log, .error error) => outcome = refused files log error
  | (log, .ok (bios, disk)) =>
    ∃ final, (engine config console bios disk).Settles final ∧ outcome = finish files log final

end Boot
end Microcomputer
