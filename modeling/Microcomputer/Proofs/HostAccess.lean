import Microcomputer.Host.Access
import Microcomputer.Proofs.Streams

/-!
# Access on a host never traps

Each access of the host answers what the machine defines, faults included, as long as the memories fit
into the host. For the fetch of a nested stream this needs its range to lie inside RAM.
-/
namespace Microcomputer

/-- How many bytes the statement takes up, executed or not. -/
def Upcoming.length : Upcoming → Nat
  | execute statement => statement.length
  | skip instruction _ => instruction.length

namespace Host

variable {memory : Memory} {address : Int} {start length : Nat}

/-- The sums of a word stay far below the greatest number. -/
theorem decodeWord_eq (word : Word) : decodeWord word = .ok word.decode := by
  have hlow := word.low.toNat_lt
  have hmiddle := word.middle.toNat_lt
  have hhigh := word.high.toNat_lt
  have htag : word.tag.toNat % 8 < 8 := Nat.mod_lt _ (by decide)
  have hleast : Int32.minValue.toInt = -0x80000000 := rfl
  have hgreatest : Int32.maxValue.toInt = 0x7FFFFFFF := rfl
  have hmagnitude : (word.magnitude : Int) = word.low.toNat + word.middle.toNat * 16 +
      word.high.toNat * 256 + (word.tag.toNat % 8 : Nat) := by
    simp only [Word.magnitude, Int.natCast_add, Int.natCast_mul, Int.cast_ofNat_Int]
  refine (bind_of_ok (signed_of_bounds (by omega) (by omega))).trans ?_
  refine (bind_of_ok (signed_of_bounds (by omega) (by omega))).trans ?_
  refine (bind_of_ok (signed_of_bounds (by omega) (by omega))).trans ?_
  refine (bind_of_ok (signed_of_bounds (by omega) (by omega))).trans ?_
  refine (bind_of_ok (signed_of_bounds (by omega) (by omega))).trans ?_
  rw [← hmagnitude, Word.decode, Word.value]
  by_cases hnegative : word.negative = true
  · simp only [hnegative, ↓reduceIte]
    exact bind_of_ok (signed_of_bounds (by omega) (by omega))
  · simp only [hnegative, Bool.false_eq_true, ↓reduceIte]
    rfl

theorem wordOf_bytes (word : Word) : wordOf word.bytes = .ok word := rfl

section Spans

theorem span_of_ok (fits : memory.size < arrayLimit) (h : memory.locate address length = .ok start) :
    span memory address length = .ok (start, start + length) := by
  obtain ⟨rfl, hin⟩ := Memory.locate_eq_ok_iff.mp h
  have hlimit : start + length < sizeLimit := by
    unfold arrayLimit at fits
    unfold sizeLimit
    omega
  rw [span, if_neg (by omega)]
  exact if_pos ⟨hlimit, hin⟩

theorem span_of_error {fault : Fault} (h : memory.locate address length = .error fault) :
    span memory address length = refuse fault := by
  obtain ⟨hout, rfl⟩ := Memory.locate_eq_error_iff.mp h
  unfold span
  by_cases hnegative : address < 0
  · rw [if_pos hnegative]
  · rw [if_neg hnegative]
    exact if_neg (by omega)

theorem slice_span (h : memory.locate address length = .ok start) :
    slice memory.bytes.toList start (start + length) = .ok (memory.bytes.window start length) := by
  have hin : start + length ≤ memory.bytes.toList.length := (Memory.locate_eq_ok_iff.mp h).2
  rw [slice_of_le (Nat.le_add_right ..) hin, Nat.add_sub_cancel_left, Bytes.window_eq]

theorem overwrite_span (data : List UInt8) (h : memory.locate address data.length = .ok start) :
    overwrite memory start (start + data.length) data = .ok (memory.put start data) := by
  have hin : start + data.length ≤ memory.bytes.size := (Memory.locate_eq_ok_iff.mp h).2
  have hlist : start + data.length ≤ memory.bytes.toList.length := hin
  rw [overwrite, paste_of_le hlist, Memory.put, Bytes.overlay_eq hin]
  rfl

end Spans

section Memory

variable (fits : memory.size < arrayLimit)

include fits

theorem readNumber_eq (address : Int32) : readNumber memory address = lift (memory.readNumber address) := by
  rw [readNumber, Memory.readNumber]
  cases h : memory.locate address.toInt Word.size with
  | error fault => rw [span_of_error h]; rfl
  | ok start =>
    have hin := (Memory.locate_eq_ok_iff.mp h).2
    refine (bind_of_ok (span_of_ok fits h)).trans ((bind_of_ok (slice_span h)).trans ?_)
    rw [Memory.window_wordAt hin]
    exact (bind_of_ok (wordOf_bytes _)).trans (decodeWord_eq _)

theorem writeNumber_eq (address value : Int32) :
    writeNumber memory address value = lift (memory.writeNumber address value) := by
  rw [writeNumber, Memory.writeNumber, Memory.placeNumber]
  cases h : memory.locate address.toInt Word.size with
  | error fault => rw [span_of_error h]; rfl
  | ok start =>
    refine (bind_of_ok (span_of_ok fits h)).trans ?_
    cases Word.encode value with
    | error fault => rfl
    | ok word => exact overwrite_span word.bytes h

theorem readArray_eq (hstart : start < arrayLimit) (length : Nat) :
    readArray memory start length = lift (memory.load start length) := by
  rw [readArray, Memory.load]
  refine (bind_of_ok (addressOf_of_lt hstart)).trans ?_
  cases h : memory.locate (start : Int) length with
  | error fault => rw [span_of_error h]; rfl
  | ok found =>
    refine (bind_of_ok (span_of_ok fits h)).trans ?_
    exact slice_span h

theorem writeArray_eq (hstart : start < arrayLimit) (data : List UInt8) :
    writeArray memory start data = lift (memory.store start data) := by
  rw [writeArray, Memory.store]
  refine (bind_of_ok (addressOf_of_lt hstart)).trans ?_
  cases h : memory.locate (start : Int) data.length with
  | error fault => rw [span_of_error h]; rfl
  | ok found =>
    refine (bind_of_ok (span_of_ok fits h)).trans ?_
    exact overwrite_span data h

end Memory

section Registers

variable (registers : Registers) (index : Int32)

theorem register_eq : register registers index = lift (registers.locate index) := by
  unfold register Registers.locate
  by_cases hnonneg : 0 ≤ index.toInt
  · rw [if_pos hnonneg]
    refine (bind_of_ok (sizeOf_of_nonneg hnonneg)).trans ?_
    by_cases hlt : index.toInt < registers.size
    · rw [if_pos (by omega), if_pos ⟨hnonneg, hlt⟩]
      rfl
    · rw [if_neg (by omega), if_neg (by omega)]
      rfl
  · rw [if_neg hnonneg, if_neg (by omega)]
    rfl

theorem readRegister_eq : readRegister registers index = lift (registers.read index) := by
  rw [readRegister, register_eq, Registers.read]
  cases h : registers.locate index with
  | error fault => rfl
  | ok slot =>
    have hlt : slot < registers.values.size := (Registers.locate_eq_ok_iff.mp h).2
    have hlist : slot < registers.values.toList.length := hlt
    refine (index_of_lt hlist).trans ?_
    rw [Array.getElem_toList]
    simp [lift, bind, Except.bind, pure, Except.pure, Except.mapError, Array.getD_eq_getD_getElem?, hlt]

theorem writeRegister_eq (value : Int32) :
    writeRegister registers index value = lift (registers.write index value) := by
  rw [writeRegister, register_eq, Registers.write]
  cases h : registers.locate index with
  | error fault => rfl
  | ok slot =>
    have hlist : slot < registers.values.toList.length := (Registers.locate_eq_ok_iff.mp h).2
    refine (bind_of_ok (assign_of_lt hlist value)).trans ?_
    have hvalues : (registers.values.toList.set slot value).toArray =
        registers.values.setIfInBounds slot value := by
      rw [← Array.toList_setIfInBounds]
    rw [hvalues]
    rfl

end Registers

section Operands

variable {ram : Memory} (fits : ram.size < arrayLimit) (registers : Registers) (operand : Operand)

include fits

theorem readOperand_eq : readOperand operand registers ram = lift (operand.read registers ram) := by
  unfold readOperand Operand.read
  cases operand.mode with
  | register => exact readRegister_eq registers operand.payload
  | registerValue =>
    simp only [readRegister_eq, lift_bind, readNumber_eq fits]
  | pointer => exact readNumber_eq fits operand.payload
  | constant => rfl

theorem writeOperand_eq (value : Int32) :
    writeOperand operand registers ram value = lift (operand.write registers ram value) := by
  unfold writeOperand Operand.write Operand.destination
  cases operand.mode with
  | register =>
    simp only [writeRegister_eq, Registers.write]
    cases registers.locate operand.payload <;> rfl
  | registerValue =>
    simp only [readRegister_eq, writeNumber_eq fits, Memory.writeNumber]
    cases registers.read operand.payload with
    | error fault => rfl
    | ok address =>
      change lift (ram.placeNumber address value >>= _) >>= _ =
        lift ((ram.placeNumber address value >>= _) >>= _)
      cases ram.placeNumber address value <;> rfl
  | pointer =>
    simp only [writeNumber_eq fits, Memory.writeNumber]
    cases ram.placeNumber operand.payload value <;> rfl
  | constant => rfl

end Operands

section Decoding

theorem decodeOperand_eq (bytes : List UInt8) : decodeOperand bytes = lift (Operand.decode bytes) := by
  match bytes with
  | [] | [_] | [_, _] | [_, _, _] | [_, _, _, _] => rfl
  | code :: tag :: high :: middle :: low :: rest =>
    have henough : ¬ (code :: tag :: high :: middle :: low :: rest).length < Operand.size := by
      simp [Operand.size]
    rw [decodeOperand, if_neg henough]
    have hcode : index (code :: tag :: high :: middle :: low :: rest) 0 = .ok code := rfl
    refine (bind_of_ok hcode).trans ?_
    rw [Operand.decode]
    cases Mode.ofCode? code with
    | none => rfl
    | some mode =>
      have hslice : slice (code :: tag :: high :: middle :: low :: rest) 1 Operand.size =
          .ok (Word.bytes ⟨tag, high, middle, low⟩) :=
        slice_of_le (by decide) (Nat.le_of_not_lt henough)
      refine (bind_of_ok hslice).trans ((bind_of_ok (wordOf_bytes _)).trans ?_)
      exact bind_of_ok (decodeWord_eq _)

theorem decode_take (bytes : List UInt8) :
    Operand.decode (bytes.take Operand.size) = Operand.decode bytes := by
  match bytes with
  | [] | [_] | [_, _] | [_, _, _] | [_, _, _, _] | _ :: _ :: _ :: _ :: _ :: _ => rfl

/-- The chunks of the operands are whole, and there are as many of them as operands. -/
theorem decodeOperands_eq {count slots : Nat} {bytes : List UInt8} (enough : count ≤ slots)
    (whole : bytes.length = count * Operand.size) :
    decodeOperands slots bytes = lift (Subtype.val <$> Statement.decodeOperands count bytes) := by
  induction count generalizing slots bytes with
  | zero =>
    obtain rfl : bytes = [] := List.length_eq_zero_iff.mp (by omega)
    cases slots <;> rfl
  | succ count ih =>
    obtain ⟨slots, rfl⟩ := Nat.exists_eq_add_of_le' (Nat.lt_of_lt_of_le (Nat.succ_pos count) enough)
    have hsize : Operand.size ≤ bytes.length := by
      rw [whole, Nat.succ_mul]
      exact Nat.le_add_left ..
    have hfront : slice bytes 0 Operand.size = .ok (bytes.take Operand.size) :=
      slice_of_le (Nat.zero_le _) hsize
    have hback : slice bytes Operand.size bytes.length = .ok (bytes.drop Operand.size) := by
      rw [slice_of_le hsize (Nat.le_refl _), List.take_of_length_le (by simp)]
    have hrest : (bytes.drop Operand.size).length = count * Operand.size := by
      rw [List.length_drop, whole, Nat.succ_mul, Nat.add_sub_cancel]
    rw [decodeOperands, if_neg (Nat.not_lt.mpr hsize)]
    refine (bind_of_ok hfront).trans ?_
    rw [decodeOperand_eq, decode_take, Statement.decodeOperands]
    cases Operand.decode bytes with
    | error fault => rfl
    | ok operand =>
      refine (bind_of_ok hback).trans ?_
      rw [ih (Nat.le_of_succ_le_succ enough) hrest]
      cases Statement.decodeOperands count (bytes.drop Operand.size) <;> rfl

theorem usedSlots_eq {instruction : Instruction} {operands : List Operand}
    (h : operands.length = instruction.arity) : usedSlots instruction operands = .ok operands := by
  have hmax := instruction.arity_le_maxArity
  have hinside : instruction.arity ≤ (operands ++
      List.replicate (Instruction.maxArity - operands.length) (⟨.constant, 0⟩ : Operand)).length := by
    rw [List.length_append, h]
    exact Nat.le_add_right ..
  refine (slice_of_le (Nat.zero_le _) hinside).trans ?_
  rw [List.drop_zero, Nat.sub_zero, ← h, List.take_left]

theorem decodeHeader_eq (bytes : List UInt8) : decodeHeader bytes = lift (Statement.decodeHeader bytes) := by
  match bytes with
  | [] | [_] => rfl
  | first :: second :: rest =>
    have henough : ¬ (first :: second :: rest).length < Statement.headerSize := by
      simp [Statement.headerSize]
    rw [decodeHeader, if_neg henough]
    have hfirst : index (first :: second :: rest) 0 = .ok first := rfl
    have hsecond : index (first :: second :: rest) 1 = .ok second := rfl
    refine (bind_of_ok hfirst).trans ?_
    rw [Statement.decodeHeader]
    cases Instruction.ofCode? first with
    | none => rfl
    | some instruction =>
      refine (bind_of_ok hsecond).trans ?_
      dsimp only
      cases Condition.ofCode? second <;> rfl

theorem statementLength_eq (instruction : Instruction) :
    statementLength instruction = .ok instruction.length := by
  have harity : instruction.arity ≤ 3 := instruction.arity_le_maxArity
  have hoperands : instruction.arity * Operand.size < sizeLimit := by
    rw [Operand.size, sizeLimit]
    omega
  have hsum : Statement.headerSize + instruction.arity * Operand.size < sizeLimit := by
    rw [Statement.headerSize, Operand.size, sizeLimit]
    omega
  exact (bind_of_ok (size_of_lt hoperands)).trans (size_of_lt hsum)

/-- The header is decoded once more, with the same result. -/
theorem decodeStatement_eq {instruction : Instruction} {condition : Condition} {bytes : List UInt8}
    (header : Statement.decodeHeader bytes = .ok (instruction, condition))
    (whole : bytes.length = instruction.length) :
    decodeStatement bytes = lift (Statement.decodeBody instruction condition bytes) := by
  have hbody : slice bytes Statement.headerSize instruction.length =
      .ok (bytes.drop Statement.headerSize) := by
    rw [slice_of_le instruction.headerSize_le_length (Nat.le_of_eq whole.symm),
      List.take_of_length_le (by simp [whole])]
  have hoperands : (bytes.drop Statement.headerSize).length = instruction.arity * Operand.size := by
    rw [List.length_drop, whole, Instruction.length, Statement.headerSize, Nat.add_sub_cancel_left]
  rw [decodeStatement, decodeHeader_eq, header]
  refine (bind_of_ok rfl).trans ((bind_of_ok (statementLength_eq instruction)).trans ?_)
  rw [if_neg (Nat.not_lt.mpr (Nat.le_of_eq whole.symm))]
  refine (bind_of_ok hbody).trans ?_
  rw [decodeOperands_eq instruction.arity_le_maxArity hoperands, Statement.decodeBody]
  cases Statement.decodeOperands instruction.arity (bytes.drop Statement.headerSize) with
  | error fault => rfl
  | ok operands =>
    obtain ⟨operands, h⟩ := operands
    refine (bind_of_ok rfl).trans ((bind_of_ok (usedSlots_eq h)).trans ?_)
    rw [Statement.ofOperands?, dif_pos h]
    rfl

end Decoding

section Fetching

variable {code : Code} {machine : Machine} {offset length : Nat}

theorem fetch_of_short {ram : Memory} (h : code.size - offset < length) :
    fetch code ram offset length = refuse (.truncatedStatement length (code.size - offset)) :=
  if_pos h

variable (fits : machine.ram.size < arrayLimit) (inside : code.Inside machine.ram)
  (small : code.size < arrayLimit)

include fits inside small

theorem source_of_enough (hlength : 0 < length) (h : offset + length ≤ code.size) :
    source code machine.ram offset length = .ok ((code.contents machine).window offset length) := by
  cases code with
  | image bytes =>
    have hin : offset + length ≤ bytes.toList.length := h
    have hsum : offset + length < sizeLimit := Nat.lt_trans (Nat.lt_of_le_of_lt h small) (by decide)
    refine (bind_of_ok (size_of_lt hsum)).trans ?_
    rw [slice_of_le (Nat.le_add_right ..) hin, Nat.add_sub_cancel_left, ← Bytes.window_eq]
    rfl
  | ram start count =>
    have hin : start + count ≤ machine.ram.size := inside
    have hoffset : offset + length ≤ count := h
    have hstart : start + offset < arrayLimit := Nat.lt_of_le_of_lt (by omega) fits
    have hsum : start + offset < sizeLimit := Nat.lt_trans hstart (by decide)
    have hfetch := Code.fetch_of_enough inside hlength h
    rw [Code.fetch, if_neg (by omega)] at hfetch
    refine (bind_of_ok (size_of_lt hsum)).trans ?_
    rw [readArray_eq fits hstart]
    exact congrArg lift hfetch

omit fits inside small in
/-- A range that RAM does not hold is no place to read from, and an image has no bytes behind its end. -/
example : source (.ram 0 2) ⟨.ram, #[]⟩ 0 2 = refuse (.addressOutOfRange .ram 0 0) ∧
    source (.image #[]) ⟨.ram, #[]⟩ 0 2 = trap .outOfBounds :=
  ⟨rfl, rfl⟩

/-- The buffer takes the bytes of any statement, and they are the first in it. -/
theorem fetch_of_enough (hlength : 0 < length) (hmax : length ≤ Statement.maxLength)
    (h : offset + length ≤ code.size) :
    ∃ buffer, fetch code machine.ram offset length = .ok buffer ∧
      slice buffer 0 length = .ok ((code.contents machine).window offset length) := by
  have hwindow : ((code.contents machine).window offset length).length = length :=
    Bytes.length_window (by rw [Code.size_contents inside]; exact h)
  refine ⟨(code.contents machine).window offset length ++
    List.replicate (Statement.maxLength - length) 0, ?fetched, ?front⟩
  case fetched =>
    have hroom : 0 ≤ length ∧ length ≤ (List.replicate Statement.maxLength (0 : UInt8)).length := by
      rw [List.length_replicate]
      exact ⟨Nat.zero_le _, hmax⟩
    rw [fetch, if_neg (by omega)]
    refine (bind_of_ok (source_of_enough fits inside small hlength h)).trans ?_
    rw [paste, if_pos hroom, if_pos (hwindow.trans (Nat.sub_zero length).symm), List.take_zero,
      List.nil_append, List.drop_replicate]
  case front =>
    rw [slice_of_le (Nat.zero_le _) (by simp [hwindow]), List.drop_zero, Nat.sub_zero,
      List.take_left' hwindow]

omit fits small in
/-- The header that a whole statement begins with is decoded again as it was before. -/
theorem decodeStatement_window {instruction : Instruction} {condition : Condition}
    (whole : offset + instruction.length ≤ code.size)
    (header : Statement.decodeHeader ((code.contents machine).window offset Statement.headerSize) =
      .ok (instruction, condition)) :
    decodeStatement ((code.contents machine).window offset instruction.length) =
      lift (Statement.decodeBody instruction condition
        ((code.contents machine).window offset instruction.length)) := by
  apply decodeStatement_eq
  · rw [← Statement.decodeHeader_take, Bytes.take_window instruction.headerSize_le_length, header]
  · exact Bytes.length_window (by rw [Code.size_contents inside]; exact whole)

/-- What comes next is what the machine says, and the offset after it can be counted. -/
theorem upcoming_eq : upcoming code offset machine = lift do
    let upcoming ← code.upcoming offset machine
    return (upcoming, offset + upcoming.length) := by
  by_cases hshort : code.size - offset < Statement.headerSize
  · rw [upcoming, Code.upcoming, fetch_of_short hshort, Code.fetch_of_short hshort]
    rfl
  have hheader : offset + Statement.headerSize ≤ code.size := by
    unfold Statement.headerSize at hshort ⊢
    omega
  obtain ⟨header, hfetch, hfront⟩ := fetch_of_enough fits inside small (by decide) (by decide) hheader
  refine (bind_of_ok hfetch).trans ((bind_of_ok hfront).trans ?_)
  rw [decodeHeader_eq]
  cases hparts : Statement.decodeHeader ((code.contents machine).window offset Statement.headerSize) with
  | error fault =>
    rw [Code.upcoming_of_invalid inside hheader hparts]
    rfl
  | ok parts =>
    obtain ⟨instruction, condition⟩ := parts
    have hnext : offset + instruction.length < sizeLimit := by
      have hmax : instruction.length ≤ 17 := instruction.length_le_maxLength
      unfold Statement.headerSize at hheader
      unfold arrayLimit at small
      unfold sizeLimit
      omega
    refine (bind_of_ok (statementLength_eq instruction)).trans ((bind_of_ok (size_of_lt hnext)).trans ?_)
    by_cases hcut : code.size - offset < instruction.length
    · rw [fetch_of_short hcut, Code.upcoming_of_cut inside hheader hparts hcut]
      rfl
    have hwhole : offset + instruction.length ≤ code.size := by
      unfold Statement.headerSize at hheader
      omega
    have hlength : 0 < instruction.length :=
      Nat.lt_of_lt_of_le (by decide) instruction.headerSize_le_length
    obtain ⟨buffer, hbuffer, hbytes⟩ :=
      fetch_of_enough fits inside small hlength instruction.length_le_maxLength hwhole
    rw [Code.upcoming_of_whole inside hheader hparts hwhole]
    refine (bind_of_ok hbuffer).trans ?_
    by_cases hholds : condition.holds machine.registers.compare = true
    · simp only [hholds, ↓reduceIte]
      refine (bind_of_ok hbytes).trans ?_
      rw [decodeStatement_window inside hwhole hparts]
      cases hbody : Statement.decodeBody instruction condition
        ((code.contents machine).window offset instruction.length) with
      | error fault => rfl
      | ok statement =>
        have hinstruction := Statement.instruction_of_decodeBody hbody
        show Except.ok (Upcoming.execute statement, offset + instruction.length) =
          .ok (.execute statement, offset + statement.instruction.length)
        rw [hinstruction]
    · simp only [hholds, Bool.false_eq_true, ↓reduceIte]
      rfl

end Fetching

end Host
end Microcomputer
