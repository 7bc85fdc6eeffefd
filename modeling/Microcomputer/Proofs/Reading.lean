import Microcomputer.Assembly.Line
import Microcomputer.Proofs.Codec

/-!
# What a line reads as

Each form of line reads as one kind of item, and a statement is read token by token.
-/
namespace Microcomputer.Assembly

/-- The slots are read from the tokens one by one. -/
def SlotsRead (tokens : List (List Char)) (slots : List Slot) : Prop :=
  List.Forall₂ (fun token slot => readSlot token = .ok slot) tokens slots

theorem readSlots_eq_ok {tokens : List (List Char)}
    {slots : { slots : List Slot // slots.length = tokens.length }} :
    readSlots tokens = .ok slots ↔ SlotsRead tokens slots.val := by
  induction tokens with
  | nil =>
    obtain ⟨slots, h⟩ := slots
    obtain rfl := List.eq_nil_of_length_eq_zero h
    exact ⟨fun _ => List.Forall₂.nil, fun _ => rfl⟩
  | cons token tokens ih =>
    rw [readSlots, bind_eq_ok]
    constructor
    · rintro ⟨slot, hslot, hrest⟩
      obtain ⟨rest, hr, hlast⟩ := bind_eq_ok.mp hrest
      cases hlast
      exact List.Forall₂.cons hslot (ih.mp hr)
    · obtain ⟨slots, hlength⟩ := slots
      rintro (_ | ⟨hslot, hrest⟩)
      refine ⟨_, hslot, bind_eq_ok.mpr ⟨⟨_, Nat.succ.inj hlength⟩, ih.mpr hrest, rfl⟩⟩

/-- A mnemonic names an instruction and a condition. -/
def NamedBy (mnemonic : List Char) (instruction : Instruction) (condition : Condition) : Prop :=
  Instruction.ofName? (splitMnemonic mnemonic).1 = some instruction ∧
    readCondition (splitMnemonic mnemonic).2 = .ok condition

theorem readStatement_eq_ok {mnemonic : List Char} {tokens : List (List Char)} {built : Statement}
    {uses : List LabelUse} :
    readStatement mnemonic tokens = .ok (built, uses) ↔
      NamedBy mnemonic built.instruction built.condition ∧
        ∃ slots, SlotsRead tokens slots ∧ built.operands = slots.map (·.operand) ∧
          uses = labelUses 0 slots := by
  unfold readStatement NamedBy
  generalize splitMnemonic mnemonic = parts
  obtain ⟨name, suffix?⟩ := parts
  simp only
  cases hname : Instruction.ofName? name with
  | none => simp
  | some instruction =>
    simp only [bind_eq_ok, Option.some.injEq]
    constructor
    · rintro ⟨condition, hcondition, h⟩
      by_cases harity : tokens.length = instruction.arity
      · rw [dif_pos harity] at h
        obtain ⟨slots, hslots, hlast⟩ := bind_eq_ok.mp h
        cases hlast
        exact ⟨⟨rfl, hcondition⟩, slots.val, readSlots_eq_ok.mp hslots, rfl, rfl⟩
      · rw [dif_neg harity] at h
        cases h
    · rintro ⟨⟨rfl, hcondition⟩, slots, hslots, hoperands, rfl⟩
      have hlength := hslots.length_eq
      have harity : tokens.length = built.instruction.arity := by
        rw [hlength, ← built.arity_eq, hoperands, List.length_map]
      refine ⟨built.condition, hcondition, ?_⟩
      rw [dif_pos harity]
      refine bind_eq_ok.mpr ⟨⟨slots, hlength.symm⟩, readSlots_eq_ok.mpr hslots, ?_⟩
      obtain ⟨_, _, _, _⟩ := built
      cases hoperands
      rfl

namespace Line

/-- The line reads as the item. -/
inductive Reads : Line → Item → Prop
  | blank : Reads .blank .nothing
  | number (text : List Char) (word : Word) : Reads (.number text) (.data word.bytes [])
  | byte (text : List Char) (b : UInt8) : Reads (.byte text) (.data [b] [])
  | padding (text : List Char) (address : Nat) : Reads (.padding text) (.padding address)
  | label (name : List Char) : Reads (.label name) (.label name)
  | statement {mnemonic : List Char} {tokens : List (List Char)} {built : Statement}
      {bytes : List UInt8} {uses : List LabelUse}
      (read : readStatement mnemonic tokens = .ok (built, uses)) (encoded : built.encode = .ok bytes) :
      Reads (.statement mnemonic tokens) (.data bytes uses)

theorem reads_of_outcome {line : Line} {item : Item} (h : line.read.outcome = .ok item) :
    line.Reads item := by
  cases line with
  | blank =>
    cases h
    exact .blank
  | number text =>
    obtain ⟨_, _, hrest⟩ := bind_eq_ok.mp h
    obtain ⟨word, _, hlast⟩ := bind_eq_ok.mp hrest
    cases hlast
    exact .number text word
  | byte text =>
    obtain ⟨value, _, hlast⟩ := bind_eq_ok.mp h
    cases hlast
    exact .byte text _
  | padding text =>
    obtain ⟨address, _, hlast⟩ := bind_eq_ok.mp h
    cases hlast
    exact .padding text address
  | label name =>
    by_cases hv : isLabelName name = true
    · simp only [read, hv, ↓reduceIte] at h
      cases h
      exact .label name
    · simp [read, hv] at h
  | statement mnemonic tokens =>
    cases hr : readStatement mnemonic tokens with
    | error rejection => simp [read, hr] at h
    | ok result =>
      obtain ⟨built, uses⟩ := result
      cases he : built.encode with
      | error fault => simp [read, hr, he] at h
      | ok bytes =>
        simp only [read, hr, he] at h
        cases h
        exact .statement hr he

theorem outcome_of_statement {mnemonic : List Char} {tokens : List (List Char)} {built : Statement}
    {bytes : List UInt8} {uses : List LabelUse}
    (read : readStatement mnemonic tokens = .ok (built, uses)) (encoded : built.encode = .ok bytes) :
    (Line.statement mnemonic tokens).read.outcome = .ok (.data bytes uses) := by
  simp only [Line.read, read, encoded]

end Line

end Microcomputer.Assembly
