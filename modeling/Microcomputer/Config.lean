/-! The settings of a machine and of the files that it boots from. -/
namespace Microcomputer

structure Config where
  ramSize : Nat
  registers : Nat
  maxDepth : Nat
  biosPath : String
  diskPath : String
  deriving DecidableEq, Repr

def Config.standard : Config where
  ramSize := 0x10000
  registers := 16
  maxDepth := 64
  biosPath := "bios"
  diskPath := "harddisk"

end Microcomputer
