import Mathlib.Data.List.Induction
import Mathlib.Order.Basic
import Microcomputer.Proofs.Canonical
import Microcomputer.Proofs.HostAccess
import Microcomputer.Proofs.Storage

/-!
# A memory as an array of bytes

A memory is read and written by bytes, by numbers and by arrays, at signed and at unsigned addresses. After
any calls each byte is the one that was laid down there last, and a call is accepted if its span lies inside.
-/
namespace Microcomputer

theorem Bytes.window_one {bytes : Bytes} {start : Nat} (h : start + 1 ≤ bytes.size) :
    bytes.window start 1 = [bytes.getD start 0] := by
  have hstart : start < bytes.size := h
  rw [Bytes.window_eq, List.take_one, List.head?_drop, Array.getElem?_toList,
    Array.getElem?_eq_getElem hstart]
  simp [Array.getD, hstart]

namespace Memory

/-- A call on a memory, with its address and length as they are passed. -/
inductive Call
  | readByte (address : Int32)
  | writeByte (address : Int32) (value : UInt8)
  | readNumber (address : Int32)
  | writeNumber (address value : Int32)
  | readArray (address length : UInt64)
  | writeArray (address : UInt64) (data : List UInt8)
  deriving DecidableEq, Repr

inductive Answer
  | done
  | byte (value : UInt8)
  | number (value : Int32)
  | bytes (data : List UInt8)
  deriving DecidableEq, Repr

/-- A write that fails leaves the memory as it was. -/
def settle (memory : Memory) : Except Fault Memory → Except Fault Answer × Memory
  | .error fault => (.error fault, memory)
  | .ok later => (.ok .done, later)

namespace Call

def perform (call : Call) (memory : Memory) : Except Fault Answer × Memory :=
  match call with
  | readByte address => (.byte <$> memory.readByte address, memory)
  | writeByte address value => memory.settle (memory.writeByte address value)
  | readNumber address => (.number <$> memory.readNumber address, memory)
  | writeNumber address value => memory.settle (memory.writeNumber address value)
  | readArray address length => (.bytes <$> memory.readArray address length.toNat, memory)
  | writeArray address data => memory.settle (memory.writeArray address data)

/-- The address as it is passed. -/
def address : Call → Int
  | readByte address | writeByte address _ | readNumber address | writeNumber address _ => address.toInt
  | readArray address _ | writeArray address _ => address.toNat

/-- The address as the memory takes it, signed in 64 bits. -/
def start : Call → Int
  | readByte address | writeByte address _ | readNumber address | writeNumber address _ => address.toInt
  | readArray address _ | writeArray address _ => arrayAddress address

def width : Call → Nat
  | readByte _ | writeByte _ _ => 1
  | readNumber _ | writeNumber _ _ => Word.size
  | readArray _ length => length.toNat
  | writeArray _ data => data.length

/-- The number that the call is to write. -/
def number? : Call → Option Int32
  | writeNumber _ value => some value
  | readByte _ | writeByte _ _ | readNumber _ | readArray _ _ | writeArray _ _ => none

/-- The span lies inside a memory of `size` bytes; nothing wraps around. -/
def Inside (call : Call) (size : Nat) : Prop :=
  0 ≤ call.address ∧ call.address + call.width ≤ size

def Encodable (call : Call) : Prop :=
  ∀ value ∈ call.number?, value.toInt.natAbs ≤ 0xFFFF

def Accepted (call : Call) (size : Nat) : Prop :=
  call.Inside size ∧ call.Encodable

instance (call : Call) (size : Nat) : Decidable (call.Inside size) :=
  inferInstanceAs (Decidable (_ ∧ _))

instance (call : Call) : Decidable call.Encodable :=
  Option.decidableForallMem call.number?

instance (call : Call) (size : Nat) : Decidable (call.Accepted size) :=
  inferInstanceAs (Decidable (_ ∧ _))

/-- The bytes that the call lays down, from its address on. -/
def data : Call → List UInt8
  | writeByte _ value => [value]
  | writeNumber _ value => (Word.encode value).toOption.elim [] Word.bytes
  | writeArray _ data => data
  | readByte _ | readNumber _ | readArray _ _ => []

/-- The byte that the call lays down at `place` in a memory of `size` bytes. -/
def laid? (call : Call) (size place : Nat) : Option UInt8 :=
  if call.Accepted size ∧ call.address ≤ place then call.data[place - call.address.toNat]? else none

/-- What the call answers if its span holds these bytes. -/
def answer? (call : Call) (held : List UInt8) : Option Answer :=
  match call with
  | readByte _ => held.head?.map .byte
  | readNumber _ => (Word.ofBytes? held).map fun word => .number word.decode
  | readArray _ _ => some (.bytes held)
  | writeByte _ _ | writeNumber _ _ | writeArray _ _ => some .done

end Call

/-- The memory after the calls, some of which may fail. -/
def after (memory : Memory) (calls : List Call) : Memory :=
  calls.foldl (fun memory call => (call.perform memory).2) memory

theorem after_concat (memory : Memory) (calls : List Call) (call : Call) :
    memory.after (calls ++ [call]) = (call.perform (memory.after calls)).2 := by
  rw [after, List.foldl_append]
  rfl

/-- The byte that the last of the calls to cover `place` laid down there, or else the initial one. -/
def lastLaid? (memory : Memory) (calls : List Call) (place : Nat) : Option UInt8 :=
  (calls.reverse.findSome? (·.laid? memory.size place)).or memory.bytes[place]?

theorem arrayAddress_eq (address : UInt64) : arrayAddress address =
    if address.toNat < Host.arrayLimit then (address.toNat : Int) else address.toNat - Host.sizeLimit := by
  have hsigned : arrayAddress address = address.toBitVec.toInt := rfl
  have hnat : address.toBitVec.toNat = address.toNat := rfl
  have harray : Host.arrayLimit = 0x8000000000000000 := rfl
  have hsize : Host.sizeLimit = 0x10000000000000000 := rfl
  rw [hsigned, BitVec.toInt_eq_toNat_cond, hnat]
  split <;> split <;> omega

namespace Call

variable {call : Call} {memory : Memory} {place : Nat} {fault : Fault}

/-- An address counts as it is passed, or is too great for any memory and counts as negative. -/
theorem start_eq_or (call : Call) :
    call.start = call.address ∨ Host.arrayLimit ≤ call.address ∧ call.start < 0 := by
  have harray (address : UInt64) : arrayAddress address = address.toNat ∨
      (Host.arrayLimit : Int) ≤ address.toNat ∧ arrayAddress address < 0 := by
    have hlt : address.toNat < Host.sizeLimit := address.toNat_lt
    rw [arrayAddress_eq]
    split
    · exact Or.inl rfl
    · exact Or.inr ⟨by omega, by omega⟩
  cases call with
  | readByte | writeByte | readNumber | writeNumber => exact Or.inl rfl
  | readArray address | writeArray address => exact harray address

theorem locate_of_inside (h : call.Inside memory.size) (fits : memory.size < Host.arrayLimit) :
    memory.locate call.start call.width = .ok call.address.toNat := by
  obtain ⟨hnonneg, hin⟩ := h
  refine locate_eq_ok_iff.mpr ⟨?_, by omega⟩
  rcases call.start_eq_or with hstart | ⟨hgreat, -⟩ <;> omega

theorem locate_of_not_inside (h : ¬call.Inside memory.size) :
    memory.locate call.start call.width = .error (memory.outOfRange call.start) := by
  refine locate_eq_error_iff.mpr ⟨?_, rfl⟩
  unfold Inside at h
  rcases call.start_eq_or with hstart | ⟨-, hnegative⟩ <;> omega

/-- The checked sums of the host admit the same spans. -/
theorem span_iff (fits : memory.size < Host.arrayLimit) :
    (∃ span, Host.span memory call.start call.width = .ok span) ↔ call.Inside memory.size := by
  by_cases h : call.Inside memory.size
  · exact iff_of_true ⟨_, Host.span_of_ok fits (locate_of_inside h fits)⟩ h
  · refine iff_of_false ?_ h
    rintro ⟨span, hspan⟩
    rw [Host.span_of_error (locate_of_not_inside h)] at hspan
    cases hspan

/-- A call whose span lies outside fails, and changes nothing. -/
theorem perform_of_outside (h : memory.locate call.start call.width = .error fault) :
    call.perform memory = (.error fault, memory) := by
  cases call with
  | readByte address =>
    have hlocate : memory.locate address.toInt 1 = .error fault := h
    rw [perform, Memory.readByte, hlocate]
    rfl
  | writeByte address value =>
    have hlocate : memory.locate address.toInt [value].length = .error fault := h
    rw [perform, Memory.writeByte, store, hlocate]
    rfl
  | readNumber address =>
    have hlocate : memory.locate address.toInt Word.size = .error fault := h
    rw [perform, Memory.readNumber, hlocate]
    rfl
  | writeNumber address value =>
    have hlocate : memory.locate address.toInt Word.size = .error fault := h
    rw [perform, Memory.writeNumber, placeNumber, hlocate]
    rfl
  | readArray address length =>
    have hlocate : memory.locate (arrayAddress address) length.toNat = .error fault := h
    rw [perform, Memory.readArray, load, hlocate]
    rfl
  | writeArray address data =>
    have hlocate : memory.locate (arrayAddress address) data.length = .error fault := h
    rw [perform, Memory.writeArray, store, hlocate]
    rfl

/-- So does one that is to write a number without a word. -/
theorem perform_of_not_encodable (hlocate : memory.locate call.start call.width = .ok place)
    (h : ¬call.Encodable) : ∃ fault, call.perform memory = (.error fault, memory) := by
  cases call with
  | writeNumber address value =>
    have hvalue : ¬value.toInt.natAbs ≤ Word.maxMagnitude := by
      intro hsmall
      refine h fun other hother => ?_
      obtain rfl := Option.some.inj hother
      exact hsmall
    have hnumber : memory.locate address.toInt Word.size = .ok place := hlocate
    refine ⟨.numberOutOfRange value, ?_⟩
    rw [perform, Memory.writeNumber, placeNumber, hnumber, Word.encode_of_not_le hvalue]
    rfl
  | readByte | writeByte | readNumber | readArray | writeArray =>
    -- These write no number.
    exact absurd (by simp [Encodable, number?]) h

/-- Any other answers from the bytes that its span holds, and lays down its own. -/
theorem perform_of_encodable (hlocate : memory.locate call.start call.width = .ok place)
    (h : call.Encodable) :
    ∃ answer, call.answer? (memory.bytes.window place call.width) = some answer ∧
      call.perform memory = (.ok answer, memory.put place call.data) := by
  have hinside := (locate_eq_ok_iff.mp hlocate).2
  cases call with
  | readByte address =>
    have hbyte : memory.locate address.toInt 1 = .ok place := hlocate
    refine ⟨.byte (memory.bytes.getD place 0), ?_, ?_⟩
    · rw [width, Bytes.window_one hinside]
      rfl
    · rw [perform, Memory.readByte, hbyte]
      rfl
  | writeByte address value =>
    have hbyte : memory.locate address.toInt [value].length = .ok place := hlocate
    refine ⟨.done, rfl, ?_⟩
    rw [perform, Memory.writeByte, store, hbyte]
    rfl
  | readNumber address =>
    have hnumber : memory.locate address.toInt Word.size = .ok place := hlocate
    refine ⟨.number (memory.wordAt place).decode, ?_, ?_⟩
    · rw [width, window_wordAt hinside]
      rfl
    · rw [perform, Memory.readNumber, hnumber]
      rfl
  | writeNumber address value =>
    have hnumber : memory.locate address.toInt Word.size = .ok place := hlocate
    obtain ⟨word, hencode, -⟩ := Word.encode_of_le (h value rfl)
    refine ⟨.done, rfl, ?_⟩
    rw [perform, data, Memory.writeNumber, placeNumber, hnumber, hencode]
    rfl
  | readArray address length =>
    have harray : memory.locate (arrayAddress address) length.toNat = .ok place := hlocate
    refine ⟨.bytes (memory.bytes.window place length.toNat), rfl, ?_⟩
    rw [perform, Memory.readArray, load, harray]
    rfl
  | writeArray address data =>
    have harray : memory.locate (arrayAddress address) data.length = .ok place := hlocate
    refine ⟨.done, rfl, ?_⟩
    rw [perform, Memory.writeArray, store, harray]
    rfl

/-- No call changes the region or its size. -/
theorem perform_keeps_shape (call : Call) (memory : Memory) :
    (call.perform memory).2.region = memory.region ∧ (call.perform memory).2.size = memory.size := by
  cases hlocate : memory.locate call.start call.width with
  | error fault =>
    rw [perform_of_outside hlocate]
    exact ⟨rfl, rfl⟩
  | ok place =>
    by_cases hencodable : call.Encodable
    · obtain ⟨answer, -, hperform⟩ := perform_of_encodable hlocate hencodable
      rw [hperform]
      exact ⟨rfl, size_put ..⟩
    · obtain ⟨fault, hperform⟩ := perform_of_not_encodable hlocate hencodable
      rw [hperform]
      exact ⟨rfl, rfl⟩

theorem perform_of_accepted (h : call.Accepted memory.size) (fits : memory.size < Host.arrayLimit) :
    ∃ answer, call.answer? (memory.bytes.window call.address.toNat call.width) = some answer ∧
      call.perform memory = (.ok answer, memory.put call.address.toNat call.data) :=
  perform_of_encodable (locate_of_inside h.1 fits) h.2

theorem perform_of_not_accepted (h : ¬call.Accepted memory.size) (fits : memory.size < Host.arrayLimit) :
    ∃ fault, call.perform memory = (.error fault, memory) := by
  by_cases hinside : call.Inside memory.size
  · exact perform_of_not_encodable (locate_of_inside hinside fits) fun hencodable => h ⟨hinside, hencodable⟩
  · exact ⟨_, perform_of_outside (locate_of_not_inside hinside)⟩

theorem length_data_le (call : Call) : call.data.length ≤ call.width := by
  cases call with
  | readByte | writeByte | readNumber | readArray | writeArray => simp [data, width]
  | writeNumber address value =>
    rw [data, width]
    cases Word.encode value with
    | error fault => exact Nat.zero_le _
    | ok word => exact Nat.le_refl _

end Call

section Runs

variable {memory : Memory}

/-- An accepted call lays down its bytes and nothing else, and a refused one lays down nothing. -/
theorem getElem?_perform (fits : memory.size < Host.arrayLimit) (call : Call) (place : Nat) :
    (call.perform memory).2.bytes[place]? = (call.laid? memory.size place).or memory.bytes[place]? := by
  by_cases h : call.Accepted memory.size
  · obtain ⟨answer, -, hperform⟩ := Call.perform_of_accepted h fits
    have hinside := h.1
    have hdata := call.length_data_le
    have hsize : memory.bytes.size = memory.size := rfl
    unfold Call.Inside at hinside
    rw [hperform]
    by_cases hcovers : call.address ≤ place ∧ place < call.address.toNat + call.data.length
    · have hindex : place - call.address.toNat < call.data.length := by omega
      rw [Call.laid?, if_pos ⟨h, hcovers.1⟩, put, Bytes.getElem?_overlay, if_pos (by omega),
        List.getElem?_eq_getElem hindex]
      rfl
    · -- Past its own bytes the call lays down nothing, and neither before them.
      have hnone : call.laid? memory.size place = none := by
        rw [Call.laid?, ite_eq_right_iff]
        exact fun hlaid => List.getElem?_eq_none (by omega)
      rw [hnone, put, Bytes.getElem?_overlay_of_outside (by omega)]
      rfl
  · obtain ⟨fault, hperform⟩ := Call.perform_of_not_accepted h fits
    rw [hperform, Call.laid?, if_neg fun hlaid => h hlaid.1]
    rfl

theorem after_keeps_shape (memory : Memory) (calls : List Call) :
    (memory.after calls).region = memory.region ∧ (memory.after calls).size = memory.size := by
  induction calls using List.reverseRecOn with
  | nil => exact ⟨rfl, rfl⟩
  | append_singleton calls call ih =>
    obtain ⟨hregion, hsize⟩ := call.perform_keeps_shape (memory.after calls)
    rw [after_concat]
    exact ⟨hregion.trans ih.1, hsize.trans ih.2⟩

theorem getElem?_after (fits : memory.size < Host.arrayLimit) (calls : List Call) (place : Nat) :
    (memory.after calls).bytes[place]? = memory.lastLaid? calls place := by
  induction calls using List.reverseRecOn with
  | nil => rfl
  | append_singleton calls call ih =>
    have hsize := (after_keeps_shape memory calls).2
    rw [after_concat, getElem?_perform (hsize.trans_lt fits), ih, hsize, lastLaid?, lastLaid?,
      List.reverse_concat, List.findSome?_cons]
    cases call.laid? memory.size place <;> rfl

end Runs

/--
A memory is an array of bytes of fixed length. After any calls each byte is the one that the last accepted
write to cover it laid down, or the initial one. The next call is accepted if its span lies inside, and a
number to be written has a word. Then it answers from the bytes of its span, and else it changes nothing. The
host, which adds in 64 bits, finds the same spans inside.
-/
theorem refines_byte_array (memory : Memory) (fits : memory.size < Host.arrayLimit) (calls : List Call)
    (call : Call) :
    let now := memory.after calls
    (now.region = memory.region ∧ now.size = memory.size) ∧
    (∀ place, now.bytes[place]? = memory.lastLaid? calls place) ∧
    ((∃ span, Host.span now call.start call.width = .ok span) ↔ call.Inside memory.size) ∧
    (call.Accepted memory.size → ∃ held answer, held.length = call.width ∧
      (∀ i < call.width, held[i]? = memory.lastLaid? calls (call.address.toNat + i)) ∧
      call.answer? held = some answer ∧ call.perform now = (.ok answer, memory.after (calls ++ [call]))) ∧
    (¬call.Accepted memory.size → ∃ fault, call.perform now = (.error fault, now)) := by
  intro now
  obtain ⟨hregion, hsize⟩ := after_keeps_shape memory calls
  have hbytes := getElem?_after fits calls
  have hfits : now.size < Host.arrayLimit := hsize.trans_lt fits
  rw [← hsize]
  refine ⟨⟨hregion, rfl⟩, hbytes, Call.span_iff hfits, fun haccepted => ?accepted,
    fun hrefused => Call.perform_of_not_accepted hrefused hfits⟩
  case accepted =>
    obtain ⟨answer, hanswer, hperform⟩ := Call.perform_of_accepted haccepted hfits
    have hinside := (locate_eq_ok_iff.mp (Call.locate_of_inside haccepted.1 hfits)).2
    refine ⟨_, answer, Bytes.length_window hinside, fun i hi => ?_, hanswer, ?_⟩
    · rw [Bytes.getElem?_window, if_pos hi, hbytes]
    · rw [after_concat, hperform]

/-- Two numbers that overlap, and between them an array that would end at address zero. -/
def overlappingCalls : List Call :=
  [.writeNumber 3 (-300), .writeArray 0xFFFFFFFFFFFFFFFF [1], .writeNumber 5 7]

theorem refines_byte_array_overlap :
    (zeros .ram 16).size < Host.arrayLimit ∧ (Call.readNumber 3).Accepted 16 ∧
      ∃ later, (Call.readNumber 3).perform ((zeros .ram 16).after overlappingCalls) =
        (.ok (.number (-256)), later) := by
  have fits : (zeros .ram 16).size < Host.arrayLimit := by decide
  have haccepted : (Call.readNumber 3).Accepted 16 := by decide
  obtain ⟨-, -, -, haccept, -⟩ := refines_byte_array (zeros .ram 16) fits overlappingCalls (.readNumber 3)
  obtain ⟨held, answer, hlength, hheld, hanswer, hperform⟩ := haccept haccepted
  have hbytes : held = [8, 1, 0, 0] := by
    apply List.ext_getElem
    · exact hlength
    · intro i hi hi'
      have hlaid : ∀ i < 4, (zeros .ram 16).lastLaid? overlappingCalls (3 + i) = [8, 1, 0, 0][i]? := by
        decide
      have hbyte := (hheld i (hlength ▸ hi)).trans (hlaid i hi')
      rw [List.getElem?_eq_getElem hi, List.getElem?_eq_getElem hi'] at hbyte
      exact Option.some.inj hbyte
  subst hbytes
  obtain rfl := Option.some.inj hanswer
  exact ⟨fits, haccepted, _, hperform⟩

end Memory
end Microcomputer
