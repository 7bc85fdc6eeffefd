import Microcomputer.Proofs.Linking

/-!
# Statements with label operands

The word of a label replaces the zero of its slot and nothing else, so filling in an encoded statement
gives the encoding of the statement with the addresses as constants.
-/
namespace Microcomputer.Assembly

/-- The slot with the address of its label in it. -/
def Slot.link (address : List Char → Nat) (slot : Slot) : Slot :=
  match slot.label? with
  | some label => ⟨⟨.constant, Int32.ofNat (address label)⟩, none⟩
  | none => slot

/-- A slot waiting for a label holds the constant zero. -/
def Slot.Pending (slot : Slot) : Prop :=
  ∀ label, slot.label? = some label → slot.operand = ⟨.constant, 0⟩

/-- The label of the slot, if it has one, lies at an address that has a word. -/
def Slot.Reachable (address : List Char → Nat) (slot : Slot) : Prop :=
  ∀ label, slot.label? = some label → address label ≤ Word.maxMagnitude

theorem within_labelUses (index : Nat) (slots : List Slot) :
    Within (Statement.headerSize + (index + slots.length) * Operand.size) (labelUses index slots) := by
  induction slots generalizing index with
  | nil => exact fun use hu => absurd hu List.not_mem_nil
  | cons slot slots ih =>
    have hrest : Within _ (labelUses (index + 1) slots) := ih (index + 1)
    have hcount : index + 1 + slots.length = index + (slot :: slots).length := by
      rw [List.length_cons]
      omega
    rw [hcount] at hrest
    obtain ⟨operand, label?⟩ := slot
    cases label? with
    | none => exact hrest
    | some label =>
      refine List.forall_mem_cons.mpr ⟨?_, hrest⟩
      have hone : Operand.size = 1 + Word.size := rfl
      simp only [List.length_cons, Nat.add_mul, hone]
      omega

theorem labelUses_link (address : List Char → Nat) (index : Nat) (slots : List Slot) :
    labelUses index (slots.map (·.link address)) = [] := by
  induction slots generalizing index with
  | nil => rfl
  | cons slot slots ih =>
    obtain ⟨operand, label?⟩ := slot
    cases label? with
    | none => exact ih (index + 1)
    | some label => exact ih (index + 1)

/-- Laying a word over that of an operand replaces its payload. -/
theorem overlay_payload (mode : UInt8) (old new : Word) (rest : List UInt8) :
    Bytes.overlay (mode :: old.bytes ++ rest).toArray 1 new.bytes =
      (mode :: new.bytes).toArray ++ rest.toArray := by
  apply Array.ext'
  simp [Bytes.overlay, Word.bytes]

/-- Filling in the words of the labels gives the operands with the addresses written in. -/
theorem encodeOperands_link {address : List Char → Nat} {slots : List Slot} {bytes : List UInt8}
    (hpending : ∀ slot ∈ slots, slot.Pending) (hreach : ∀ slot ∈ slots, slot.Reachable address)
    (h : Statement.encodeOperands (slots.map (·.operand)) = .ok bytes) {index : Nat} {front : Bytes}
    (hfront : front.size = Statement.headerSize + index * Operand.size) :
    ∃ linked, Statement.encodeOperands ((slots.map (·.link address)).map (·.operand)) = .ok linked ∧
      patch address (front ++ bytes.toArray) (labelUses index slots) = front ++ linked.toArray := by
  induction slots generalizing bytes index front with
  | nil =>
    cases h
    exact ⟨[], rfl, rfl⟩
  | cons slot slots ih =>
    obtain ⟨hslot, hslots⟩ := List.forall_mem_cons.mp hpending
    obtain ⟨hlabel, hlabels⟩ := List.forall_mem_cons.mp hreach
    obtain ⟨first, rest, hfirst, hrest, rfl⟩ := Statement.encodeOperands_cons_eq_ok.mp h
    -- Whatever the first operand becomes, the others follow it five bytes on.
    have hstep {operand : List UInt8} (hlength : operand.length = Operand.size) :
        ∃ linked, Statement.encodeOperands ((slots.map (·.link address)).map (·.operand)) = .ok linked ∧
          patch address (front ++ operand.toArray ++ rest.toArray) (labelUses (index + 1) slots) =
            front ++ operand.toArray ++ linked.toArray := by
      refine ih hslots hlabels hrest ?_
      have hsize : (front ++ operand.toArray).size = front.size + operand.length := by simp
      rw [hsize, hlength, hfront, Nat.add_mul, Nat.one_mul, Nat.add_assoc]
    obtain ⟨operand, label?⟩ := slot
    cases label? with
    | none =>
      obtain ⟨linked, hlinked, hpatch⟩ := hstep (Operand.length_of_encode hfirst)
      refine ⟨first ++ linked,
        Statement.encodeOperands_cons_eq_ok.mpr ⟨first, linked, hfirst, hlinked, rfl⟩, ?_⟩
      rw [← List.append_toArray, ← Array.append_assoc, ← List.append_toArray, ← Array.append_assoc]
      exact hpatch
    | some label =>
      obtain rfl : operand = ⟨.constant, 0⟩ := hslot label rfl
      have hword := Operand.encode_constant (hlabel label rfl)
      obtain ⟨linked, hlinked, hpatch⟩ := hstep (Operand.length_of_encode hword)
      refine ⟨_, Statement.encodeOperands_cons_eq_ok.mpr ⟨_, linked, hword, hlinked, rfl⟩, ?_⟩
      have hzero : (Operand.mk .constant 0).encode =
          .ok (Mode.constant.code :: (Word.mk 0 0 0 0).bytes) := rfl
      obtain rfl := Except.ok.inj (hfirst.symm.trans hzero)
      have hplace : Statement.headerSize + index * Operand.size + 1 = front.size + 1 := by rw [hfront]
      rw [labelUses, patch, List.foldl_cons, hplace, Bytes.overlay_append_right, overlay_payload,
        ← Array.append_assoc, ← List.append_toArray, ← Array.append_assoc]
      exact hpatch

/-- The statement with the addresses of its labels as constants has the filled-in bytes. -/
theorem encode_link {address : List Char → Nat} {built : Statement} {slots : List Slot}
    {bytes : List UInt8} (hoperands : built.operands = slots.map (·.operand))
    (hpending : ∀ slot ∈ slots, slot.Pending) (hreach : ∀ slot ∈ slots, slot.Reachable address)
    (h : built.encode = .ok bytes) :
    ∃ linked : Statement, linked.instruction = built.instruction ∧ linked.condition = built.condition ∧
      linked.operands = (slots.map (·.link address)).map (·.operand) ∧
      linked.encode = .ok (patch address bytes.toArray (labelUses 0 slots)).toList := by
  obtain ⟨instruction, condition, operands, arity⟩ := built
  obtain rfl : operands = _ := hoperands
  obtain ⟨body, hbody, rfl⟩ := Statement.encode_eq_ok.mp h
  have hheader : (#[instruction.code, condition.code] : Bytes).size =
      Statement.headerSize + 0 * Operand.size := rfl
  obtain ⟨linked, hlinked, hpatch⟩ := encodeOperands_link hpending hreach hbody hheader
  have harity : ((slots.map (·.link address)).map (·.operand)).length = instruction.arity := by
    simpa using arity
  refine ⟨⟨instruction, condition, _, harity⟩, rfl, rfl, rfl,
    Statement.encode_eq_ok.mpr ⟨linked, hlinked, ?_⟩⟩
  have hbytes : (instruction.code :: condition.code :: body).toArray =
      #[instruction.code, condition.code] ++ body.toArray := by simp
  rw [hbytes, hpatch]
  simp

theorem mem_labelUses {index : Nat} {slots : List Slot} {label : List Char} :
    (∃ use ∈ labelUses index slots, use.label = label) ↔
      ∃ slot ∈ slots, slot.label? = some label := by
  induction slots generalizing index with
  | nil => simp [labelUses]
  | cons slot slots ih =>
    obtain ⟨operand, label?⟩ := slot
    cases label? with
    | none => simp [labelUses, ih]
    | some other => simp [labelUses, ih]

theorem readSlot_pending {token : List Char} {slot : Slot} (h : readSlot token = .ok slot) :
    slot.Pending := by
  unfold readSlot at h
  split at h
  · cases h
    intro label _
    rfl
  all_goals
    obtain ⟨_, _, hlast⟩ := bind_eq_ok.mp h
    cases hlast
    intro label hlabel
    cases hlabel

theorem SlotsRead.pending {tokens : List (List Char)} {slots : List Slot} (h : SlotsRead tokens slots) :
    ∀ slot ∈ slots, slot.Pending := by
  induction h with
  | nil => simp
  | cons hslot _ ih => exact List.forall_mem_cons.mpr ⟨readSlot_pending hslot, ih⟩

/-- The label operands of a line that was read lie inside its bytes. -/
theorem Line.Reads.fits {line : Line} {item : Item} (h : line.Reads item) : item.Fits := by
  intro start
  cases h with
  | statement hread hencode =>
    obtain ⟨-, slots, hslots, hoperands, rfl⟩ := readStatement_eq_ok.mp hread
    rename_i built bytes
    have hinside := within_labelUses 0 slots
    have hcount : built.operands.length = slots.length := by rw [hoperands, List.length_map]
    have hsize : bytes.length = Statement.headerSize + (0 + slots.length) * Operand.size := by
      rw [Statement.length_of_encode hencode, Statement.length, Instruction.length, ← built.arity_eq,
        hcount, Nat.zero_add]
      rfl
    rw [Item.added, List.size_toArray, hsize]
    exact hinside
  | _ => exact fun use hu => absurd hu List.not_mem_nil

end Microcomputer.Assembly
