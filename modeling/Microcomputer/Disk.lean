import Microcomputer.FileSystem
import Microcomputer.Memory

/-!
# The disk

A buffer of bytes, and the path of the file that it stands for. The file is read once in full and
written back once in full; between the two it keeps its old contents.
-/
namespace Microcomputer

structure Disk where
  path : String
  buffer : Memory
  deriving DecidableEq, Repr

namespace Disk

def ofBytes (path : String) (bytes : Bytes) : Disk :=
  ⟨path, ⟨.disk, bytes⟩⟩

def load (files : FileSystem) (path : String) : Except FileFailure Disk :=
  match files.read path with
  | .error cause => .error ⟨.loadDisk, path, cause⟩
  | .ok bytes => .ok (ofBytes path bytes)

def persist (disk : Disk) (files : FileSystem) : Except FileFailure FileSystem :=
  match files.write disk.path disk.buffer.bytes with
  | .error cause => .error ⟨.persistDisk, disk.path, cause⟩
  | .ok files => .ok files

/-- The record of a load or a write-back of this disk. -/
def record (disk : Disk) (purpose : FilePurpose) : Record :=
  purpose.record disk.buffer.size disk.path

end Disk
end Microcomputer
