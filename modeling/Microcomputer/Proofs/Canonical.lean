import Microcomputer.Proofs.Codec

/-!
# Canonical words

Of the many words of a number, encoding produces the canonical one. So what was decoded is encoded back
to the same bytes exactly if every payload in them was a canonical word, and cannot be encoded at all if a
payload is too large for one.
-/
namespace Microcomputer

namespace Word

/-- A tag of 0 or 8, the two lower digits within their base, and no negative zero. -/
def Canonical (word : Word) : Prop :=
  (word.tag = 0 ∨ word.tag = 8) ∧ word.middle < 16 ∧ word.low < 16 ∧ word ≠ ⟨8, 0, 0, 0⟩

theorem natAbs_value (word : Word) : word.value.natAbs = word.magnitude := by
  unfold value
  split <;> omega

theorem magnitude_le (word : Word) : word.magnitude ≤ 69622 := by
  have hlow := word.low.toNat_lt
  have hmiddle := word.middle.toNat_lt
  have hhigh := word.high.toNat_lt
  unfold magnitude
  omega

/-- The value of a word always fits into 32 bits. -/
theorem toInt_decode (word : Word) : word.decode.toInt = word.value := by
  have hsmall := word.magnitude_le
  have habs := word.natAbs_value
  exact Int32.toInt_ofInt_of_le (by omega) (by omega)

theorem toNat_middle_ofMagnitude (negative : Bool) (magnitude : Nat) :
    (ofMagnitude negative magnitude).middle.toNat = magnitude / 16 % 16 :=
  UInt8.toNat_ofNat_of_lt' (Nat.lt_trans (Nat.mod_lt _ (by decide)) (by decide))

theorem toNat_low_ofMagnitude (negative : Bool) (magnitude : Nat) :
    (ofMagnitude negative magnitude).low.toNat = magnitude % 16 :=
  UInt8.toNat_ofNat_of_lt' (Nat.lt_trans (Nat.mod_lt _ (by decide)) (by decide))

theorem canonical_ofMagnitude {negative : Bool} {magnitude : Nat} (h : magnitude ≤ maxMagnitude)
    (hsign : negative = true → magnitude ≠ 0) : (ofMagnitude negative magnitude).Canonical := by
  have hmiddle := toNat_middle_ofMagnitude negative magnitude
  have hlow := toNat_low_ofMagnitude negative magnitude
  refine ⟨?_, ?_, ?_, fun hzero => ?_⟩
  · cases negative
    · exact Or.inl rfl
    · exact Or.inr rfl
  · exact UInt8.lt_iff_toNat_lt.mpr (hmiddle ▸ Nat.mod_lt _ (by decide))
  · exact UInt8.lt_iff_toNat_lt.mpr (hlow ▸ Nat.mod_lt _ (by decide))
  · have hvalue := magnitude_ofMagnitude negative h
    have htag := negative_ofMagnitude negative magnitude
    rw [hzero] at hvalue htag
    exact hsign htag.symm hvalue.symm

theorem canonical_of_encode {number : Int32} {word : Word} (h : encode number = .ok word) :
    word.Canonical := by
  obtain ⟨hsmall, rfl⟩ := encode_eq_ok.mp h
  refine canonical_ofMagnitude hsmall fun hnegative => ?_
  have hsign := of_decide_eq_true hnegative
  omega

section Canonical

variable {word : Word}

/-- The digits of a canonical word are those of its magnitude. -/
theorem Canonical.magnitude_eq (h : word.Canonical) :
    word.magnitude = word.low.toNat + word.middle.toNat * 16 + word.high.toNat * 256 := by
  have htag : word.tag.toNat % 8 = 0 := by
    rcases h.1 with h | h <;> rw [h] <;> rfl
  rw [magnitude, htag, Nat.add_zero]

theorem Canonical.magnitude_le (h : word.Canonical) : word.magnitude ≤ maxMagnitude := by
  have hvalue := h.magnitude_eq
  have hmiddle := UInt8.lt_iff_toNat_lt.mp h.2.1
  have hlow := UInt8.lt_iff_toNat_lt.mp h.2.2.1
  have hhigh := word.high.toNat_lt
  have hlimit : maxMagnitude = 65535 := rfl
  have hbase : (16 : UInt8).toNat = 16 := rfl
  omega

theorem Canonical.ofMagnitude_eq (h : word.Canonical) :
    ofMagnitude word.negative word.magnitude = word := by
  have hvalue := h.magnitude_eq
  obtain ⟨htag, hmiddle, hlow, -⟩ := h
  have hmiddle := UInt8.lt_iff_toNat_lt.mp hmiddle
  have hlow := UInt8.lt_iff_toNat_lt.mp hlow
  have hhigh := word.high.toNat_lt
  have hbase : (16 : UInt8).toNat = 16 := rfl
  obtain ⟨tag, high, middle, low⟩ := word
  simp only at hvalue hmiddle hlow hhigh htag
  rw [ofMagnitude, mk.injEq, hvalue]
  refine ⟨?_, ?_, ?_, ?_⟩
  · rcases htag with rfl | rfl
    · exact if_neg Bool.false_ne_true
    · exact if_pos (by simp [Word.negative])
  · rw [show (low.toNat + middle.toNat * 16 + high.toNat * 256) / 256 = high.toNat by omega]
    exact UInt8.ofNat_toNat
  · rw [show (low.toNat + middle.toNat * 16 + high.toNat * 256) / 16 % 16 = middle.toNat by omega]
    exact UInt8.ofNat_toNat
  · rw [show (low.toNat + middle.toNat * 16 + high.toNat * 256) % 16 = low.toNat by omega]
    exact UInt8.ofNat_toNat

/-- Without a negative zero, the sign of the number is that of the word. -/
theorem Canonical.negative_iff (h : word.Canonical) : word.negative = true ↔ word.value < 0 := by
  unfold value
  by_cases hnegative : word.negative = true
  · have hne : word.magnitude ≠ 0 := by
      intro hzero
      refine h.2.2.2 ?_
      have hword := h.ofMagnitude_eq
      rw [hnegative, hzero] at hword
      exact hword.symm
    rw [if_pos hnegative]
    exact ⟨fun _ => by omega, fun _ => hnegative⟩
  · rw [if_neg hnegative]
    exact ⟨fun hn => absurd hn hnegative, fun hn => absurd hn (by omega)⟩

/-- A word is encoded back as itself exactly if it is canonical. -/
theorem encode_decode_iff : encode word.decode = .ok word ↔ word.Canonical := by
  refine ⟨canonical_of_encode, fun h => ?_⟩
  rw [encode_eq_ok, toInt_decode, natAbs_value]
  have hsign : decide (word.value < 0) = word.negative :=
    Bool.eq_iff_iff.mpr (decide_eq_true_iff.trans h.negative_iff.symm)
  exact ⟨h.magnitude_le, hsign ▸ h.ofMagnitude_eq⟩

end Canonical

theorem encode_of_le {number : Int32} (h : number.toInt.natAbs ≤ maxMagnitude) :
    ∃ word, encode number = .ok word ∧ word.decode = number ∧ word.Canonical := by
  have hword := encode_eq_ok.mpr ⟨h, rfl⟩
  exact ⟨_, hword, decode_of_encode hword, canonical_of_encode hword⟩

theorem encode_of_not_le {number : Int32} (h : ¬number.toInt.natAbs ≤ maxMagnitude) :
    encode number = .error (.numberOutOfRange number) :=
  if_neg h

/-- Only a tag that adds nothing negates, so the least value is nearer to zero than the greatest. -/
theorem value_bounds (word : Word) : -69615 ≤ word.value ∧ word.value ≤ 69622 := by
  have hlow := word.low.toNat_lt
  have hmiddle := word.middle.toNat_lt
  have hhigh := word.high.toNat_lt
  have hmagnitude := word.magnitude_le
  by_cases h : word.negative = true
  · have htag : word.tag.toNat % 8 = 0 := by
      simp only [negative, Bool.and_eq_true, decide_eq_true_eq] at h
      simpa using congrArg UInt8.toNat h.2
    rw [value, if_pos h]
    unfold magnitude at hmagnitude ⊢
    omega
  · rw [value, if_neg h]
    omega

example : (Word.mk 0xF8 0xFF 0xFF 0xFF).value = -69615 ∧ (Word.mk 0xFF 0xFF 0xFF 0xFF).value = 69622 := by
  decide

/--
A number has a word exactly if its magnitude allows, and is read back from it. The words of such a number are
all encoded back as the same one, and that is the one among them that is canonical.
-/
theorem encode_normalises :
    (∀ number : Int32,
      if number.toInt.natAbs ≤ 0xFFFF then ∃ word, encode number = .ok word ∧ word.decode = number
      else encode number = .error (.numberOutOfRange number)) ∧
    (∀ word : Word, (-69615 ≤ word.decode.toInt ∧ word.decode.toInt ≤ 69622) ∧
      if word.decode.toInt.natAbs ≤ 0xFFFF then
        ∃ other, encode word.decode = .ok other ∧ other.decode = word.decode ∧
          (other = word ↔ word.Canonical)
      else encode word.decode = .error (.numberOutOfRange word.decode) ∧ ¬word.Canonical) ∧
    ∀ word : Word, (∃ number, encode number = .ok word) ↔ word.Canonical := by
  refine ⟨fun number => ?encoded, fun word => ⟨?bounds, ?decoded⟩, fun word => ?image⟩
  case encoded =>
    split
    · next h =>
      obtain ⟨word, hword, hdecode, -⟩ := encode_of_le h
      exact ⟨word, hword, hdecode⟩
    · next h => exact encode_of_not_le h
  case bounds =>
    rw [toInt_decode]
    exact word.value_bounds
  case decoded =>
    split
    · next h =>
      obtain ⟨other, hother, hdecode, hcanonical⟩ := encode_of_le h
      refine ⟨other, hother, hdecode, fun hsame => hsame ▸ hcanonical, fun hcanonical => ?_⟩
      exact Except.ok.inj (hother.symm.trans (encode_decode_iff.mpr hcanonical))
    · next h =>
      refine ⟨encode_of_not_le h, fun hcanonical => ?_⟩
      have hword := encode_decode_iff.mpr hcanonical
      rw [encode_of_not_le h] at hword
      cases hword
  case image =>
    constructor
    · rintro ⟨number, hnumber⟩
      exact canonical_of_encode hnumber
    · exact fun hcanonical => ⟨word.decode, encode_decode_iff.mpr hcanonical⟩

end Word

/-- The payload has a word. -/
def Operand.encodable (operand : Operand) : Bool :=
  operand.payload.toInt.natAbs ≤ Word.maxMagnitude

/-- The first operand whose payload has no word. -/
def Statement.offending? (statement : Statement) : Option Operand :=
  statement.operands.find? fun operand => !operand.encodable

namespace Operand

variable {operand : Operand}

theorem encode_of_not_encodable (h : operand.encodable = false) :
    operand.encode = .error (.numberOutOfRange operand.payload) := by
  have hlarge : ¬ operand.payload.toInt.natAbs ≤ Word.maxMagnitude := of_decide_eq_false h
  rw [encode, Word.encode, if_neg hlarge]
  rfl

theorem exists_encode_of_encodable (h : operand.encodable = true) :
    ∃ bytes, operand.encode = .ok bytes :=
  ⟨_, encode_eq_ok.mpr ⟨_, Word.encode_eq_ok.mpr ⟨of_decide_eq_true h, rfl⟩, rfl⟩⟩

/-- The word behind the mode of the operand at the front of `bytes`. -/
def payloadWord? (bytes : List UInt8) : Option Word :=
  Word.ofBytes? (bytes.drop 1)

/-- An operand is encoded back into its bytes exactly if its word was canonical. -/
theorem encode_take_of_decode {bytes : List UInt8} (h : decode bytes = .ok operand) :
    operand.encode = .ok (bytes.take size) ↔
      ∃ word, payloadWord? bytes = some word ∧ word.Canonical := by
  obtain ⟨word, rest, rfl, hpayload⟩ := decode_eq_ok.mp h
  have hfront : (operand.mode.code :: word.bytes ++ rest).take size =
      operand.mode.code :: word.bytes := List.take_left' rfl
  have hword : payloadWord? (operand.mode.code :: word.bytes ++ rest) = some word := rfl
  rw [hfront, hword, encode_eq_ok, ← hpayload]
  simp only [Option.some.injEq, exists_eq_left', List.cons.injEq, true_and]
  constructor
  · rintro ⟨other, hother, hbytes⟩
    obtain rfl : other = word := by
      obtain ⟨_, _, _, _⟩ := other
      obtain ⟨_, _, _, _⟩ := word
      simpa [Word.bytes] using hbytes
    exact Word.encode_decode_iff.mp hother
  · exact fun hcanonical => ⟨word, Word.encode_decode_iff.mpr hcanonical, rfl⟩

end Operand

namespace Statement

theorem offending?_eq (statement : Statement) : statement.offending? =
    statement.operands.find? fun operand => 0xFFFF < operand.payload.toInt.natAbs := by
  refine congrArg statement.operands.find? (funext fun operand => ?_)
  rw [Operand.encodable, ← decide_not]
  exact decide_eq_decide.mpr Nat.not_le

section Encode

variable {statement : Statement} {fault : Fault}

theorem encodeOperands_eq_error {operands : List Operand} :
    encodeOperands operands = .error fault ↔ ∃ operand,
      operands.find? (fun operand => !operand.encodable) = some operand ∧
        fault = .numberOutOfRange operand.payload := by
  induction operands with
  | nil => simp [encodeOperands]
  | cons operand operands ih =>
    cases h : operand.encodable with
    | false =>
      rw [encodeOperands, Operand.encode_of_not_encodable h, List.find?_cons_of_pos (by simp [h])]
      simp [bind, Except.bind, eq_comm]
    | true =>
      obtain ⟨front, hfront⟩ := Operand.exists_encode_of_encodable h
      rw [List.find?_cons_of_neg (by simp [h]), ← ih, encodeOperands, hfront]
      cases encodeOperands operands <;> simp [bind, Except.bind, pure, Except.pure]

/-- Encoding fails at the first operand whose payload has no word, and only there. -/
theorem encode_eq_error :
    statement.encode = .error fault ↔
      ∃ operand, statement.offending? = some operand ∧ fault = .numberOutOfRange operand.payload := by
  rw [offending?, ← encodeOperands_eq_error, encode]
  cases encodeOperands statement.operands <;> simp [bind, Except.bind, pure, Except.pure]

theorem exists_encode_iff :
    (∃ bytes, statement.encode = .ok bytes) ↔
      ∀ operand ∈ statement.operands, operand.encodable = true := by
  cases h : statement.encode with
  | ok bytes =>
    have hnone : statement.offending? = none := by
      by_contra hsome
      obtain ⟨operand, ho⟩ := Option.ne_none_iff_exists'.mp hsome
      have herror := encode_eq_error.mpr ⟨operand, ho, rfl⟩
      rw [h] at herror
      cases herror
    simpa [offending?] using hnone
  | error fault =>
    obtain ⟨operand, ho, -⟩ := encode_eq_error.mp h
    have hmem := List.mem_of_find?_eq_some ho
    have hlarge := List.find?_some ho
    simp only [reduceCtorEq, exists_false, false_iff, not_forall]
    exact ⟨operand, hmem, by simpa using hlarge⟩

end Encode

/-- The word of the payload of one operand, counted from zero. -/
def payloadWord? (bytes : List UInt8) (slot : Nat) : Option Word :=
  Operand.payloadWord? (bytes.drop (headerSize + slot * Operand.size))

theorem encodeOperands_take_of_decode {operands : List Operand} {bytes : List UInt8} {count : Nat}
    {hcount : operands.length = count} (h : decodeOperands count bytes = .ok ⟨operands, hcount⟩) :
    encodeOperands operands = .ok (bytes.take (count * Operand.size)) ↔
      ∀ slot < count, ∃ word, Operand.payloadWord? (bytes.drop (slot * Operand.size)) = some word ∧
        word.Canonical := by
  induction count generalizing operands bytes with
  | zero =>
    obtain rfl := List.length_eq_zero_iff.mp hcount
    simp [encodeOperands]
  | succ count ih =>
    obtain ⟨first, rest, hrest, rfl, hfirst, hdecode⟩ := decodeOperands_succ_eq_ok.mp h
    have hsplit : bytes.take ((count + 1) * Operand.size) =
        bytes.take Operand.size ++ (bytes.drop Operand.size).take (count * Operand.size) := by
      rw [Nat.add_mul, Nat.one_mul, Nat.add_comm, List.take_add]
    have hlater (slot : Nat) : (bytes.drop Operand.size).drop (slot * Operand.size) =
        bytes.drop ((slot + 1) * Operand.size) := by
      rw [List.drop_drop, Nat.add_mul, Nat.one_mul, Nat.add_comm]
    rw [Nat.forall_lt_succ_left', Nat.zero_mul, List.drop_zero, ← Operand.encode_take_of_decode hfirst]
    simp only [← hlater]
    rw [← ih hdecode, encodeOperands_cons_eq_ok, hsplit]
    constructor
    · rintro ⟨front, back, hfront, hback, happend⟩
      have hlength : front.length = (bytes.take Operand.size).length := by
        obtain ⟨word, tail, rfl, -⟩ := Operand.decode_eq_ok.mp hfirst
        exact Operand.length_of_encode hfront
      obtain ⟨rfl, rfl⟩ := List.append_inj happend hlength
      exact ⟨hfront, hback⟩
    · rintro ⟨hfront, hback⟩
      exact ⟨_, _, hfront, hback, rfl⟩

/-- A statement is encoded back into its bytes exactly if its payloads were canonical words. -/
theorem encode_take_of_decode {statement : Statement} {bytes : List UInt8}
    (h : decode bytes = .ok statement) :
    statement.encode = .ok (bytes.take statement.length) ↔
      ∀ slot < statement.instruction.arity,
        ∃ word, payloadWord? bytes slot = some word ∧ word.Canonical := by
  obtain ⟨body, rfl, -, hoperands⟩ := decode_eq_ok.mp h
  have htake : (statement.instruction.code :: statement.condition.code :: body).take statement.length =
      statement.instruction.code :: statement.condition.code ::
        body.take (statement.instruction.arity * Operand.size) := by
    rw [length, Instruction.length, Nat.add_comm]
    rfl
  have hdrop (slot : Nat) : payloadWord?
      (statement.instruction.code :: statement.condition.code :: body) slot =
        Operand.payloadWord? (body.drop (slot * Operand.size)) := by
    rw [payloadWord?, headerSize, Nat.add_comm]
    rfl
  simp only [hdrop]
  rw [← encodeOperands_take_of_decode hoperands, encode_eq_ok, htake]
  simp

end Statement

end Microcomputer
