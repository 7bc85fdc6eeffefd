import Microcomputer.Statement

/-! The statements of a byte string, one after another. -/
namespace Microcomputer

/-- A decoded statement, or the fault that ended the listing, at its offset. -/
structure ListingEntry where
  offset : Nat
  content : Except Fault Statement

/-- The bytes are those from `offset` on. Nothing follows a fault. -/
def listing (bytes : List UInt8) (offset : Nat) : List ListingEntry :=
  match bytes with
  | [] => []
  | first :: rest =>
    match Statement.decode (first :: rest) with
    | .error fault => [⟨offset, .error fault⟩]
    | .ok statement =>
      ⟨offset, .ok statement⟩ ::
        listing ((first :: rest).drop statement.length) (offset + statement.length)
termination_by bytes.length
decreasing_by
  have h := statement.length_pos
  simp only [List.length_drop, List.length_cons]
  omega

end Microcomputer
