import Mathlib.Data.List.Forall2
import Microcomputer.Statement

/-!
# Decoding what was encoded

Words, operands and statements are read back from their encodings, whatever bytes follow.
-/
namespace Microcomputer

theorem bind_eq_ok {ε α β : Type} {answer : Except ε α} {next : α → Except ε β} {value : β} :
    answer >>= next = .ok value ↔ ∃ middle, answer = .ok middle ∧ next middle = .ok value := by
  cases answer with
  | error fault => exact ⟨fun h => (nomatch h), fun ⟨_, h, _⟩ => (nomatch h)⟩
  | ok middle => exact ⟨fun h => ⟨middle, rfl, h⟩, fun ⟨_, h, hn⟩ => Except.ok.inj h ▸ hn⟩

theorem bind_eq_error {ε α β : Type} {answer : Except ε α} {next : α → Except ε β} {fault : ε} :
    answer >>= next = .error fault ↔
      answer = .error fault ∨ ∃ middle, answer = .ok middle ∧ next middle = .error fault := by
  cases answer with
  | error other =>
    constructor
    · intro h
      exact Or.inl (congrArg Except.error (Except.error.inj h))
    · rintro (h | ⟨_, h, _⟩)
      · exact congrArg Except.error (Except.error.inj h)
      · cases h
  | ok middle =>
    constructor
    · exact fun h => Or.inr ⟨middle, rfl, h⟩
    · rintro (h | ⟨_, h, hnext⟩)
      · cases h
      · obtain rfl := Except.ok.inj h
        exact hnext

theorem bind_of_ok {ε α β : Type} {answer : Except ε α} {next : α → Except ε β} {value : α}
    (h : answer = .ok value) : answer >>= next = next value := by
  rw [h]
  rfl

theorem bind_congr_of_ok {ε α β : Type} {answer : Except ε α} {next next' : α → Except ε β}
    (h : ∀ value, answer = .ok value → next value = next' value) : answer >>= next = answer >>= next' := by
  cases answer with
  | error fault => rfl
  | ok value => exact h value rfl

theorem toOption_eq_some {ε α : Type} {answer : Except ε α} {value : α} :
    answer.toOption = some value ↔ answer = .ok value := by
  cases answer with
  | error fault => exact ⟨fun h => (nomatch h), fun h => (nomatch h)⟩
  | ok other => simp [Except.toOption]

theorem mapError_eq_ok {ε ε' α : Type} {change : ε → ε'} {answer : Except ε α} {value : α} :
    answer.mapError change = .ok value ↔ answer = .ok value := by
  cases answer with
  | error fault => exact ⟨fun h => (nomatch h), fun h => (nomatch h)⟩
  | ok other => simp [Except.mapError]

namespace Word

theorem encode_eq_ok {number : Int32} {word : Word} :
    encode number = .ok word ↔ number.toInt.natAbs ≤ maxMagnitude ∧
      ofMagnitude (number.toInt < 0) number.toInt.natAbs = word := by
  unfold encode
  split
  · next h => simp [h]
  · next h => simp [h]

theorem encode_ofNat {address : Nat} (h : address ≤ Int32.maxValue.toInt.toNat) :
    encode (Int32.ofNat address) =
      if address ≤ maxMagnitude then .ok (ofMagnitude false address)
      else .error (.numberOutOfRange (Int32.ofNat address)) := by
  have hmax : Int32.maxValue.toInt.toNat < 2 ^ 31 := by decide
  have hvalue : (Int32.ofNat address).toInt = address := Int32.toInt_ofNat_of_lt (by omega)
  have hsign : decide ((address : Int) < 0) = false := decide_eq_false (by omega)
  rw [encode, hvalue, Int.natAbs_natCast, hsign]

theorem negative_ofMagnitude (negative : Bool) (magnitude : Nat) :
    (ofMagnitude negative magnitude).negative = negative := by
  cases negative <;> simp [Word.negative, ofMagnitude]

theorem magnitude_ofMagnitude (negative : Bool) {magnitude : Nat} (h : magnitude ≤ maxMagnitude) :
    (ofMagnitude negative magnitude).magnitude = magnitude := by
  have hlimit : maxMagnitude = 65535 := rfl
  have hbyte : UInt8.size = 256 := rfl
  have hhigh : (UInt8.ofNat (magnitude / 256)).toNat = magnitude / 256 :=
    UInt8.toNat_ofNat_of_lt' (by omega)
  have hmiddle : (UInt8.ofNat (magnitude / 16 % 16)).toNat = magnitude / 16 % 16 :=
    UInt8.toNat_ofNat_of_lt' (by omega)
  have hlow : (UInt8.ofNat (magnitude % 16)).toNat = magnitude % 16 :=
    UInt8.toNat_ofNat_of_lt' (by omega)
  have htag : (ofMagnitude negative magnitude).tag.toNat % 8 = 0 := by
    cases negative <;> simp [ofMagnitude]
  rw [Word.magnitude, htag]
  simp only [ofMagnitude, hhigh, hmiddle, hlow]
  omega

/-- A number is read back from its word. -/
theorem decode_of_encode {number : Int32} {word : Word} (h : encode number = .ok word) :
    word.decode = number := by
  obtain ⟨hsmall, rfl⟩ := encode_eq_ok.mp h
  have hvalue : (ofMagnitude (number.toInt < 0) number.toInt.natAbs).value = number.toInt := by
    rw [value, negative_ofMagnitude, magnitude_ofMagnitude _ hsmall]
    by_cases hsign : number.toInt < 0
    · rw [if_pos (decide_eq_true hsign)]
      omega
    · rw [if_neg (by simp [hsign])]
      omega
  rw [decode, hvalue, Int32.ofInt_toInt]

end Word

namespace Operand

theorem encode_eq_ok {operand : Operand} {bytes : List UInt8} :
    operand.encode = .ok bytes ↔
      ∃ word, Word.encode operand.payload = .ok word ∧ operand.mode.code :: word.bytes = bytes := by
  rw [encode, bind_eq_ok]
  simp only [pure, Except.pure, Except.ok.injEq]

theorem encode_constant {address : Nat} (h : address ≤ Word.maxMagnitude) :
    (Operand.mk .constant (Int32.ofNat address)).encode =
      .ok (Mode.constant.code :: (Word.ofMagnitude false address).bytes) := by
  have hlimit : Word.maxMagnitude ≤ Int32.maxValue.toInt.toNat := by decide
  have hword := Word.encode_ofNat (Nat.le_trans h hlimit)
  rw [if_pos h] at hword
  exact encode_eq_ok.mpr ⟨_, hword, rfl⟩

/-- What an operand is decoded from: the code of its mode and a word of its payload. -/
theorem decode_eq_ok {bytes : List UInt8} {operand : Operand} :
    decode bytes = .ok operand ↔ ∃ (word : Word) (rest : List UInt8),
      bytes = operand.mode.code :: word.bytes ++ rest ∧ word.decode = operand.payload := by
  constructor
  · intro h
    unfold decode at h
    split at h
    · next code tag high middle low rest =>
      split at h
      · next mode hmode =>
        obtain rfl := Except.ok.inj h
        obtain rfl := Mode.ofCode?_eq_some_iff.mp hmode
        exact ⟨⟨tag, high, middle, low⟩, rest, rfl, rfl⟩
      · cases h
    · cases h
  · rintro ⟨⟨tag, high, middle, low⟩, rest, rfl, hpayload⟩
    have hmode : Mode.ofCode? operand.mode.code = some operand.mode := Mode.ofCode?_eq_some_iff.mpr rfl
    have hbytes : operand.mode.code :: Word.bytes ⟨tag, high, middle, low⟩ ++ rest =
        operand.mode.code :: tag :: high :: middle :: low :: rest := rfl
    rw [hbytes, decode]
    simp only [hmode, hpayload]

theorem decode_of_encode {operand : Operand} {bytes : List UInt8} (h : operand.encode = .ok bytes)
    (rest : List UInt8) : decode (bytes ++ rest) = .ok operand := by
  obtain ⟨word, hword, rfl⟩ := encode_eq_ok.mp h
  exact decode_eq_ok.mpr ⟨word, rest, rfl, Word.decode_of_encode hword⟩

end Operand

namespace Statement

theorem encodeOperands_cons_eq_ok {operand : Operand} {operands : List Operand} {bytes : List UInt8} :
    encodeOperands (operand :: operands) = .ok bytes ↔
      ∃ front back, operand.encode = .ok front ∧ encodeOperands operands = .ok back ∧
        front ++ back = bytes := by
  rw [encodeOperands, bind_eq_ok]
  constructor
  · rintro ⟨front, hfront, hrest⟩
    obtain ⟨back, hback, hlast⟩ := bind_eq_ok.mp hrest
    exact ⟨front, back, hfront, hback, Except.ok.inj hlast⟩
  · rintro ⟨front, back, hfront, hback, rfl⟩
    exact ⟨front, hfront, bind_eq_ok.mpr ⟨back, hback, rfl⟩⟩

theorem encode_eq_ok {statement : Statement} {bytes : List UInt8} :
    statement.encode = .ok bytes ↔
      ∃ body, encodeOperands statement.operands = .ok body ∧
        statement.instruction.code :: statement.condition.code :: body = bytes := by
  rw [encode, bind_eq_ok]
  simp only [pure, Except.pure, Except.ok.injEq]

theorem decodeOperands_succ_eq_ok {count : Nat} {bytes : List UInt8} {operands : List Operand}
    {h : operands.length = count + 1} :
    decodeOperands (count + 1) bytes = .ok ⟨operands, h⟩ ↔ ∃ (first : Operand) (rest : List Operand)
      (hrest : rest.length = count), operands = first :: rest ∧ Operand.decode bytes = .ok first ∧
        decodeOperands count (bytes.drop Operand.size) = .ok ⟨rest, hrest⟩ := by
  rw [decodeOperands, bind_eq_ok]
  constructor
  · rintro ⟨first, hfirst, hnext⟩
    obtain ⟨⟨rest, hrest⟩, hdecode, hlast⟩ := bind_eq_ok.mp hnext
    cases hlast
    exact ⟨first, rest, hrest, rfl, hfirst, hdecode⟩
  · rintro ⟨first, rest, hrest, rfl, hfirst, hdecode⟩
    exact ⟨first, hfirst, bind_eq_ok.mpr ⟨_, hdecode, rfl⟩⟩

theorem decodeOperands_of_encode {operands : List Operand} {bytes : List UInt8} {count : Nat}
    (h : encodeOperands operands = .ok bytes) (hcount : operands.length = count) (rest : List UInt8) :
    decodeOperands count (bytes ++ rest) = .ok ⟨operands, hcount⟩ := by
  induction operands generalizing bytes count with
  | nil =>
    subst hcount
    rfl
  | cons operand operands ih =>
    subst hcount
    obtain ⟨front, back, hfront, hback, rfl⟩ := encodeOperands_cons_eq_ok.mp h
    have hfirst := Operand.decode_of_encode hfront (back ++ rest)
    have hdrop : (front ++ (back ++ rest)).drop Operand.size = back ++ rest :=
      List.drop_left' (Operand.length_of_encode hfront)
    rw [List.append_assoc]
    refine bind_eq_ok.mpr ⟨operand, hfirst, bind_eq_ok.mpr ⟨⟨operands, rfl⟩, ?_, rfl⟩⟩
    rw [hdrop]
    exact ih hback rfl

theorem decodeHeader_eq_ok {bytes : List UInt8} {instruction : Instruction} {condition : Condition} :
    decodeHeader bytes = .ok (instruction, condition) ↔
      ∃ rest, bytes = instruction.code :: condition.code :: rest := by
  constructor
  · intro h
    unfold decodeHeader at h
    split at h
    · split at h
      · cases h
      · next hinstruction =>
        split at h
        · cases h
        · next hcondition =>
          cases h
          obtain rfl := Instruction.ofCode?_eq_some_iff.mp hinstruction
          obtain rfl := Condition.ofCode?_eq_some_iff.mp hcondition
          exact ⟨_, rfl⟩
    · cases h
  · rintro ⟨rest, rfl⟩
    have hinstruction := Instruction.ofCode?_eq_some_iff.mpr (Eq.refl instruction.code)
    have hcondition := Condition.ofCode?_eq_some_iff.mpr (Eq.refl condition.code)
    simp only [decodeHeader, hinstruction, hcondition]

theorem decodeHeader_take (bytes : List UInt8) : decodeHeader (bytes.take headerSize) = decodeHeader bytes := by
  match bytes with
  | [] | [_] | _ :: _ :: _ => rfl

theorem instruction_of_decodeBody {instruction : Instruction} {condition : Condition} {bytes : List UInt8}
    {statement : Statement} (h : decodeBody instruction condition bytes = .ok statement) :
    statement.instruction = instruction := by
  obtain ⟨operands, -, h⟩ := bind_eq_ok.mp h
  cases h
  rfl

theorem decodeHeader_of_encode {statement : Statement} {bytes : List UInt8}
    (h : statement.encode = .ok bytes) (rest : List UInt8) :
    decodeHeader (bytes.take headerSize ++ rest) = .ok (statement.instruction, statement.condition) := by
  obtain ⟨body, -, rfl⟩ := encode_eq_ok.mp h
  exact decodeHeader_eq_ok.mpr ⟨rest, rfl⟩

/-- A statement whose header was read is read back whole. -/
theorem decodeBody_of_encode {statement : Statement} {bytes : List UInt8}
    (h : statement.encode = .ok bytes) (rest : List UInt8) :
    decodeBody statement.instruction statement.condition (bytes ++ rest) = .ok statement := by
  obtain ⟨body, hbody, rfl⟩ := encode_eq_ok.mp h
  exact bind_eq_ok.mpr ⟨_, decodeOperands_of_encode hbody statement.arity_eq rest, rfl⟩

/-- What a statement is decoded from: its codes, and the bytes of its operands. -/
theorem decode_eq_ok {statement : Statement} {bytes : List UInt8} :
    decode bytes = .ok statement ↔ ∃ body,
      bytes = statement.instruction.code :: statement.condition.code :: body ∧
        statement.length ≤ bytes.length ∧
          decodeOperands statement.instruction.arity body =
            .ok ⟨statement.operands, statement.arity_eq⟩ := by
  have htake (instruction : Instruction) :
      (bytes.take instruction.length).length < instruction.length ↔
        ¬ instruction.length ≤ bytes.length := by
    rw [List.length_take]
    omega
  constructor
  · intro h
    obtain ⟨⟨instruction, condition⟩, hheader, hbody⟩ := bind_eq_ok.mp h
    obtain ⟨body, rfl⟩ := decodeHeader_eq_ok.mp hheader
    dsimp only at hbody
    split at hbody
    · cases hbody
    · next hlong =>
      obtain ⟨⟨operands, harity⟩, hoperands, hlast⟩ := bind_eq_ok.mp hbody
      cases hlast
      exact ⟨body, rfl, not_not.mp (mt (htake _).mpr hlong), hoperands⟩
  · rintro ⟨body, rfl, hlong, hoperands⟩
    refine bind_eq_ok.mpr ⟨_, decodeHeader_eq_ok.mpr ⟨body, rfl⟩, ?_⟩
    dsimp only
    rw [if_neg (mt (htake _).mp (not_not.mpr hlong))]
    exact bind_eq_ok.mpr ⟨_, hoperands, rfl⟩

/-- A statement is read back from the front of what it was encoded into. -/
theorem decode_of_encode {statement : Statement} {bytes : List UInt8}
    (h : statement.encode = .ok bytes) (rest : List UInt8) : decode (bytes ++ rest) = .ok statement := by
  have hlength := length_of_encode h
  obtain ⟨body, hbody, rfl⟩ := encode_eq_ok.mp h
  have hlong : statement.length ≤ (statement.instruction.code :: statement.condition.code :: body ++
      rest).length := by
    rw [List.length_append, hlength]
    exact Nat.le_add_right _ _
  exact decode_eq_ok.mpr
    ⟨body ++ rest, rfl, hlong, decodeOperands_of_encode hbody statement.arity_eq rest⟩

end Statement

end Microcomputer
