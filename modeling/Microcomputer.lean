import Microcomputer.Assembly
import Microcomputer.Listing
import Microcomputer.Main
import Microcomputer.Proofs.Execution
import Microcomputer.Run
import Microcomputer.Proofs.Control
import Microcomputer.Proofs.Recursion
import Microcomputer.Proofs.StackMachine
import Microcomputer.Proofs.RamStream
import Microcomputer.Proofs.Drafting
import Microcomputer.Proofs.Linking
import Microcomputer.Proofs.Slots
import Microcomputer.Proofs.Tokens
import Microcomputer.Proofs.Numerals
import Microcomputer.Proofs.Substitution
import Microcomputer.Proofs.Layout
import Microcomputer.Proofs.AssembledRun
import Microcomputer.Proofs.Canonical
import Microcomputer.Proofs.Failing
import Microcomputer.Proofs.Listings
import Microcomputer.Proofs.Printing
import Microcomputer.Proofs.Disassembly
import Microcomputer.Proofs.Widening
import Microcomputer.Proofs.Capacity
import Microcomputer.Proofs.Streams
import Microcomputer.Proofs.Locality
import Microcomputer.Proofs.Files
import Microcomputer.Proofs.WriteBack
import Microcomputer.Host
import Microcomputer.Host.Access
import Microcomputer.Host.Engine
import Microcomputer.Proofs.HostAccess
import Microcomputer.Proofs.HostRun
import Microcomputer.Proofs.Isolation
import Microcomputer.Proofs.Storage
import Microcomputer.Proofs.History
import Microcomputer.Proofs.Traffic
import Microcomputer.Proofs.Recall
import Microcomputer.Proofs.Termination
import Microcomputer.Proofs.Comparison
import Microcomputer.Proofs.Accesses
import Microcomputer.Proofs.DiskLifecycle
import Microcomputer.Proofs.Effects
import Microcomputer.Proofs.DiskCopy
import Microcomputer.Proofs.Arithmetic
import Microcomputer.Proofs.Addressing
import Microcomputer.Proofs.Grammar
import Microcomputer.Proofs.References
import Microcomputer.Proofs.Records
import Microcomputer.Proofs.Spacing
import Microcomputer.Proofs.SourceLayout
import Microcomputer.Host.Numeral
