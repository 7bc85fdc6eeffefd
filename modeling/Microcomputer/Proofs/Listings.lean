import Microcomputer.Listing
import Microcomputer.Proofs.Canonical

/-!
# Listing what was encoded

Statements that are encoded one behind the other are listed one behind the other, each at the sum of the
lengths before it. So a run of statements and its bytes determine each other, as far as payloads have
words and words are canonical.
-/
namespace Microcomputer

/-- The statements have these encodings, one by one. -/
def EncodedAs (statements : List Statement) (encodings : List (List UInt8)) : Prop :=
  List.Forall₂ (fun statement bytes => statement.encode = .ok bytes) statements encodings

/-- The entries of statements that lie one behind the other from `offset` on. -/
def listed (offset : Nat) : List Statement → List ListingEntry
  | [] => []
  | statement :: rest => ⟨offset, .ok statement⟩ :: listed (offset + statement.length) rest

theorem listing_append {statement : Statement} {bytes : List UInt8} (h : statement.encode = .ok bytes)
    (rest : List UInt8) (offset : Nat) :
    listing (bytes ++ rest) offset =
      ⟨offset, .ok statement⟩ :: listing rest (offset + statement.length) := by
  have hdecode := Statement.decode_of_encode h rest
  have hdrop : (bytes ++ rest).drop statement.length = rest :=
    List.drop_left' (Statement.length_of_encode h)
  obtain ⟨body, -, rfl⟩ := Statement.encode_eq_ok.mp h
  rw [List.cons_append] at hdecode hdrop ⊢
  rw [listing]
  simp only [hdecode, hdrop]

/-- Encodings in a row are listed as their statements, whatever follows them. -/
theorem listing_flatten {statements : List Statement} {encodings : List (List UInt8)}
    (h : EncodedAs statements encodings) (rest : List UInt8) (offset : Nat) :
    listing (encodings.flatten ++ rest) offset =
      listed offset statements ++ listing rest (offset + encodings.flatten.length) := by
  induction h generalizing offset with
  | nil => rfl
  | cons hfirst _ ih =>
    rw [List.flatten_cons, List.append_assoc, listing_append hfirst, ih, List.length_append,
      Statement.length_of_encode hfirst, Nat.add_assoc]
    rfl

theorem Operand.encodable_iff {operand : Operand} :
    operand.encodable = true ↔ -0xFFFF ≤ operand.payload.toInt ∧ operand.payload.toInt ≤ 0xFFFF := by
  have hlimit : Word.maxMagnitude = 0xFFFF := rfl
  rw [encodable, decide_eq_true_iff, hlimit]
  omega

namespace Statement

/--
A statement is encoded exactly if every payload lies within the magnitude that words have, and fails at the
first that does not. Encodings in a row are listed as the statements that they came from. What was decoded
comes back from its own encoding, if it has one, and that is what it was decoded from exactly if every
payload was a canonical word.
-/
theorem binary_form_round_trip :
    (∀ statement : Statement,
      ((∃ bytes, statement.encode = .ok bytes) ↔ ∀ operand ∈ statement.operands,
        -0xFFFF ≤ operand.payload.toInt ∧ operand.payload.toInt ≤ 0xFFFF) ∧
      (∀ fault, statement.encode = .error fault ↔ ∃ operand,
        statement.operands.find? (fun operand => 0xFFFF < operand.payload.toInt.natAbs) = some operand ∧
          fault = .numberOutOfRange operand.payload) ∧
      ∀ bytes, statement.encode = .ok bytes → bytes.length = statement.length) ∧
    (∀ statements encodings, EncodedAs statements encodings → ∀ rest,
      listing (encodings.flatten ++ rest) 0 =
        listed 0 statements ++ listing rest encodings.flatten.length) ∧
    ∀ bytes statement, decode bytes = .ok statement →
      ((∃ fault, statement.encode = .error fault) ↔
        ∃ operand ∈ statement.operands, 0xFFFF < operand.payload.toInt.natAbs) ∧
      ∀ again, statement.encode = .ok again →
        again.length = statement.length ∧ (∀ rest, decode (again ++ rest) = .ok statement) ∧
        (again = bytes.take statement.length ↔ ∀ slot < statement.instruction.arity,
          ∃ word, payloadWord? bytes slot = some word ∧ word.Canonical) := by
  refine ⟨fun statement => ⟨?_, fun fault => ?_, fun bytes => length_of_encode⟩,
    fun statements encodings h rest => ?_, fun bytes statement h => ⟨?_, fun again hagain => ?_⟩⟩
  · simp only [exists_encode_iff, Operand.encodable_iff]
  · rw [encode_eq_error, offending?_eq]
  · rw [listing_flatten h, Nat.zero_add]
  · simp only [encode_eq_error, offending?_eq]
    simp [← Option.isSome_iff_exists]
  · refine ⟨length_of_encode hagain, decode_of_encode hagain, ?_⟩
    rw [← encode_take_of_decode h, hagain, Except.ok.injEq]

/-- A digit above its base is carried when the statement is encoded back. -/
theorem binary_form_round_trip_carry :
    let bytes : List UInt8 := [0x08, 0, 2, 0, 0, 0x20, 0, 0xFF]
    let again : List UInt8 := [0x08, 0, 2, 0, 2, 0, 0]
    let statement : Statement := ⟨.send, .always, [⟨.pointer, 512⟩], rfl⟩
    decode bytes = .ok statement ∧ statement.encode = .ok again ∧
      decode (again ++ [0xFF]) = .ok statement ∧
      (again = bytes.take statement.length ↔ ∀ slot < statement.instruction.arity,
        ∃ word, payloadWord? bytes slot = some word ∧ word.Canonical) ∧
      listing (again ++ [0xFF]) 0 = ⟨0, .ok statement⟩ :: listing [0xFF] 7 := by
  intro bytes again statement
  have hdecode : decode bytes = .ok statement := by decide
  have hagain : statement.encode = .ok again := by decide
  have hback := (binary_form_round_trip.2.2 bytes statement hdecode).2 again hagain
  have hlisting := binary_form_round_trip.2.1 [statement] [again] (.cons hagain .nil) [0xFF]
  exact ⟨hdecode, hagain, hback.2.1 [0xFF], hback.2.2, hlisting⟩

end Statement
end Microcomputer
