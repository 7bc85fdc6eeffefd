import Microcomputer.Proofs.History

/-!
# What the disk remembers

Only a completed statement that writes to the disk changes it, and it changes the four bytes of its number
alone. So a number is read from the disk as it was written last, whatever else has happened in between.
-/
namespace Microcomputer

section Perform

open Execution

variable {condition : Condition} {source place target : Operand} {next depth : Nat} {session : Session}

/-- What it takes to write to the disk, and what it comes to. -/
theorem Statement.perform_diskWrite {arity : [source, place].length = Instruction.arity .diskWrite} :
    Yields ((⟨.diskWrite, condition, [source, place], arity⟩ : Statement).perform next depth)
      (fun _ after => ∃ value offset start word,
        source.read session.machine.registers session.machine.ram = .ok value ∧
        place.read session.machine.registers session.machine.ram = .ok offset ∧
        session.machine.disk.buffer.placeNumber offset value = .ok (start, word) ∧
        after.machine.disk.buffer = session.machine.disk.buffer.put start word.bytes)
      (fun _ after => after.machine = session.machine) session := by
  refine yields_observe_bind.mpr ⟨fun value hvalue => ?_, fun _ _ => rfl⟩
  refine yields_observe_bind.mpr ⟨fun offset hoffset => ?_, fun _ _ => rfl⟩
  refine yields_bind.mpr (yields_observe_bind.mpr ⟨fun placed hplaced => ?_, fun _ _ => rfl⟩)
  exact ⟨value, offset, placed.1, placed.2, hvalue, hoffset, hplaced, rfl⟩

/-- Once the number is read from the disk, only storing it is left. -/
theorem Statement.perform_diskRead {arity : [source, target].length = Instruction.arity .diskRead}
    {offset value : Int32} (hoffset : source.read session.machine.registers session.machine.ram = .ok offset)
    (hvalue : session.machine.disk.buffer.readNumber offset = .ok value) :
    (⟨.diskRead, condition, [source, target], arity⟩ : Statement).perform next depth session =
      (store target value >>= fun _ => pure (.goto next)) session :=
  (bind_ok (observe_ok hoffset)).trans (bind_ok (observe_ok hvalue))

end Perform

namespace Attempt

/-- The statement completes, and writes `value` at `offset` of the disk. -/
def WritesDisk (attempt : Attempt) (offset value : Int32) : Prop :=
  ∃ source place, attempt.completes .diskWrite = true ∧
    attempt.statement?.map (·.operands) = some [source, place] ∧
    source.read attempt.before.registers attempt.before.ram = .ok value ∧
    place.read attempt.before.registers attempt.before.ram = .ok offset

/-- The statement is to read the number at `offset` of the disk, and to store it to `target`. -/
def ReadsDisk (attempt : Attempt) (offset : Int32) (target : Operand) : Prop :=
  ∃ source, attempt.statement?.map (·.instruction) = some .diskRead ∧
    attempt.statement?.map (·.operands) = some [source, target] ∧
    source.read attempt.before.registers attempt.before.ram = .ok offset

/-- The statement cannot write to its operand `target`, whatever the value. -/
def Misses (attempt : Attempt) (target : Operand) : Prop :=
  ∃ fault, attempt.failure? = some ⟨fault, attempt.offset, attempt.depth⟩ ∧ fault.isOfPlace = true ∧
    target.Unwritable attempt.before.registers attempt.before.ram fault

/-- The statement finds `value` at `offset` of the disk, and stores it unless that is no place to write to. -/
structure Obtains (attempt : Attempt) (offset value : Int32) (target : Operand) : Prop where
  found : attempt.before.disk.buffer.readNumber offset = .ok value
  settled : attempt.completes .diskRead = true ∧ attempt.StoresInto target value ∨ attempt.Misses target

variable {attempt : Attempt} {offset value : Int32} {target : Operand}

theorem WritesDisk.unique {other value' : Int32} (h : attempt.WritesDisk offset value)
    (h' : attempt.WritesDisk other value') : offset = other ∧ value = value' := by
  obtain ⟨source, place, -, hoperands, hvalue, hoffset⟩ := h
  obtain ⟨source', place', -, hoperands', hvalue', hoffset'⟩ := h'
  rw [hoperands, Option.some.injEq] at hoperands'
  simp only [List.cons.injEq, and_true] at hoperands'
  obtain ⟨rfl, rfl⟩ := hoperands'
  exact ⟨Except.ok.inj (hoffset.symm.trans hoffset'), Except.ok.inj (hvalue.symm.trans hvalue')⟩

/-- A statement that completes to write to the disk has found a place for its number, and put it there. -/
theorem writesDisk_of_completes (h : attempt.completes .diskWrite = true) :
    ∃ offset value start word, attempt.WritesDisk offset value ∧
      attempt.before.disk.buffer.placeNumber offset value = .ok (start, word) ∧
      attempt.after.disk.buffer = attempt.before.disk.buffer.put start word.bytes := by
  obtain ⟨⟨_, condition, operands, arity⟩, hcompleted, rfl⟩ := completes_iff.mp h
  obtain ⟨source, place, rfl⟩ := List.length_eq_two.mp arity
  obtain ⟨transfer, session, hperform, hsession⟩ := perform_of_completed? hcompleted
  obtain ⟨value, offset, start, word, hvalue, hoffset, hplaced, hafter⟩ :=
    Statement.perform_diskWrite.of_ok hperform
  have hoperands : attempt.statement?.map (·.operands) = some [source, place] := by
    rw [(completed?_eq_some.mp hcompleted).2]
    rfl
  refine ⟨offset, value, start, word, ⟨source, place, h, hoperands, hvalue, hoffset⟩, hplaced, ?_⟩
  rw [hsession, hafter]
  rfl

theorem WritesDisk.effect (h : attempt.WritesDisk offset value) :
    ∃ start word, attempt.before.disk.buffer.placeNumber offset value = .ok (start, word) ∧
      attempt.after.disk.buffer = attempt.before.disk.buffer.put start word.bytes := by
  obtain ⟨_, _, hcompletes, -⟩ := id h
  obtain ⟨_, _, start, word, hwrites, hplaced, hafter⟩ := writesDisk_of_completes hcompletes
  obtain ⟨rfl, rfl⟩ := h.unique hwrites
  exact ⟨start, word, hplaced, hafter⟩

/-- No other statement changes the disk, and neither does one that fails to write to it. -/
theorem disk_eq_of_completes (h : attempt.completes .diskWrite = false) :
    attempt.after.disk = attempt.before.disk := by
  cases hcompleted : attempt.completed? with
  | none => exact (mayReceive_of_completed?_eq_none hcompleted).same.2.2
  | some statement =>
    have hwrite : statement.instruction ≠ .diskWrite := fun hwrite => by
      rw [completes_iff.mpr ⟨statement, hcompleted, hwrite⟩] at h
      cases h
    exact view_eq_of_keeps (completed?_eq_some.mp hcompleted).2 fun _ _ => Statement.perform_keeps_disk hwrite

theorem not_writesDisk (h : attempt.completes .diskWrite = false) : ¬attempt.WritesDisk offset value := by
  rintro ⟨_, _, hcompletes, -⟩
  rw [h] at hcompletes
  cases hcompletes

/-- A number is as before unless the statement has written to one of its bytes. -/
theorem readNumber_eq
    (h : ∀ other value, attempt.WritesDisk other value → Apart offset other) :
    attempt.after.disk.buffer.readNumber offset = attempt.before.disk.buffer.readNumber offset := by
  cases hcompletes : attempt.completes .diskWrite with
  | false => rw [disk_eq_of_completes hcompletes]
  | true =>
    obtain ⟨other, value, start, word, hwrites, hplaced, hafter⟩ := writesDisk_of_completes hcompletes
    have hapart := h other value hwrites
    rw [Apart, Memory.toInt_of_placeNumber hplaced] at hapart
    rw [hafter]
    exact Memory.readNumber_put_of_apart hapart

/-- A byte is as before unless the statement has written a number over it. -/
theorem getElem?_disk_eq {index : Nat}
    (h : ∀ offset value, attempt.WritesDisk offset value → ¬Covers offset index) :
    attempt.after.disk.buffer.bytes[index]? = attempt.before.disk.buffer.bytes[index]? := by
  cases hcompletes : attempt.completes .diskWrite with
  | false => rw [disk_eq_of_completes hcompletes]
  | true =>
    obtain ⟨offset, value, start, word, hwrites, hplaced, hafter⟩ := writesDisk_of_completes hcompletes
    have houtside := h offset value hwrites
    rw [Covers, Memory.toInt_of_placeNumber hplaced] at houtside
    rw [hafter]
    refine Bytes.getElem?_overlay_of_outside ?_
    rw [Word.length_bytes]
    omega

/-- The number that was just written is found where it was written, and has a word. -/
theorem WritesDisk.found (h : attempt.WritesDisk offset value) :
    attempt.after.disk.buffer.readNumber offset = .ok value ∧ ∃ word, Word.encode value = .ok word := by
  obtain ⟨start, word, hplaced, hafter⟩ := h.effect
  rw [hafter]
  exact ⟨Memory.readNumber_of_placeNumber hplaced, word, (Memory.placeNumber_eq_ok.mp hplaced).2⟩

open Execution in
/-- A number that has a word is stored, unless there is no place to store it. -/
theorem ReadsDisk.obtains {word : Word} (h : attempt.ReadsDisk offset target)
    (hfound : attempt.before.disk.buffer.readNumber offset = .ok value)
    (hword : Word.encode value = .ok word) : attempt.Obtains offset value target := by
  obtain ⟨source, hinstruction, hoperands, hoffset⟩ := h
  obtain ⟨⟨_, condition, operands, arity⟩, hstatement, rfl⟩ := Option.map_eq_some_iff.mp hinstruction
  rw [hstatement, Option.map_some, Option.some.injEq] at hoperands
  subst hoperands
  refine ⟨hfound, ?_⟩
  have hout := (outcome_of_statement? hstatement).trans (Statement.perform_diskRead hoffset hfound)
  cases hwrite : target.write attempt.before.registers attempt.before.ram value with
  | ok written =>
    obtain ⟨registers, ram⟩ := written
    have ho := hout.trans (bind_ok (store_of_write hwrite))
    exact Or.inl ⟨completes_of_ok hstatement ho, storesInto_of_write hwrite (after_of_ok ho).1⟩
  | error fault =>
    have ho := hout.trans (bind_error (store_of_error hwrite))
    obtain ⟨hunwritable, hplace⟩ := Operand.unwritable_of_error hword hwrite
    exact Or.inr ⟨fault, (after_of_error ho).2, hplace, hunwritable⟩

end Attempt

/--
Whatever a machine is asked for and however far it has come: a statement that reads a number from the disk
obtains the one that was written there last, if no byte of it was written over since. A byte that no completed
statement has written over is as it was in the beginning.
-/
theorem Request.disk_remembers (request : Request) (session : Session) (count : Nat) :
    (∀ front between back write read offset value target,
      request.attempts session count = front ++ write :: (between ++ read :: back) →
      write.WritesDisk offset value → read.ReadsDisk offset target →
      (∀ attempt ∈ between, ∀ other value, attempt.WritesDisk other value → Apart offset other) →
      read.Obtains offset value target) ∧
    ∀ index, (∀ attempt ∈ request.attempts session count, ∀ offset value,
        attempt.WritesDisk offset value → ¬Covers offset index) →
      (request.reached session count).session.machine.disk.buffer.bytes[index]? =
        session.machine.disk.buffer.bytes[index]? := by
  have hhistory := request.history session count
  constructor
  · intro front between back write read offset value target hattempts hwrites hreads hapart
    rw [hattempts, ← List.cons_append, ← List.append_assoc] at hhistory
    have hbetween := hhistory.before_of_append_cons.after_of_append_cons
    have hkept := hbetween.view_eq (fun machine => machine.disk.buffer.readNumber offset)
      fun attempt hattempt => Attempt.readNumber_eq (hapart attempt hattempt)
    obtain ⟨hfound, word, hword⟩ := hwrites.found
    exact hreads.obtains (hkept.trans hfound) hword
  · intro index huncovered
    exact hhistory.view_eq (fun machine => machine.disk.buffer.bytes[index]?)
      fun attempt hattempt => Attempt.getElem?_disk_eq (huncovered attempt hattempt)

/-- A machine whose RAM holds a statement that reads a number from the disk. -/
def recalling : Session :=
  .ofMachine {
    registers := .zeros 1
    ram := ⟨.ram, #[0x0E, 0, 3, 0, 0, 0, 1, 0, 0, 0, 0, 0]⟩
    disk := .ofBytes "" (.replicate 9 0)
    console := .ofInput []
    maxDepth := 1 }

/-- Two numbers are written side by side; a nested stream reads the first of them. -/
theorem Request.disk_remembers_recalling :
    let request := Request.run #[0x0F, 0, 3, 8, 1, 2, 12, 3, 0, 0, 0, 1,
      0x0F, 0, 3, 0, 0, 0, 7, 3, 0, 0, 0, 5, 0x10, 0, 3, 0, 0, 0, 0, 3, 0, 0, 0, 12]
    ∃ write beside enter read, request.attempts recalling 4 = [write, beside, enter, read] ∧
      write.WritesDisk 1 (-300) ∧ beside.WritesDisk 5 7 ∧ read.depth = 1 ∧
      read.Obtains 1 (-300) ⟨.register, 0⟩ ∧
      (request.reached recalling 4).session.machine.disk.buffer.bytes[0]? = some 0 := by
  intro request
  have hfacts : (request.attempts recalling 4).map (fun attempt => (attempt.depth,
      attempt.completes .diskWrite, attempt.statement?.map (·.instruction),
      attempt.statement?.map (·.operands))) =
      [(0, true, some .diskWrite, some [⟨.constant, -300⟩, ⟨.constant, 1⟩]),
        (0, true, some .diskWrite, some [⟨.constant, 7⟩, ⟨.constant, 5⟩]),
        (0, false, some .execute, some [⟨.constant, 0⟩, ⟨.constant, 12⟩]),
        (1, false, some .diskRead, some [⟨.constant, 1⟩, ⟨.register, 0⟩])] := by
    decide +kernel
  simp only [List.map_eq_cons_iff, List.map_eq_nil_iff, Prod.mk.injEq] at hfacts
  obtain ⟨write, _, hattempts, ⟨-, hwrite, -, hfirst⟩, beside, _, rfl, ⟨-, hbeside, -, hsecond⟩,
    enter, _, rfl, ⟨-, henter, -, -⟩, read, _, rfl, ⟨hdepth, hread, hinstruction, hlast⟩, rfl⟩ := hfacts
  have hwrites : write.WritesDisk 1 (-300) := ⟨_, _, hwrite, hfirst, rfl, rfl⟩
  have hwritesBeside : beside.WritesDisk 5 7 := ⟨_, _, hbeside, hsecond, rfl, rfl⟩
  have hreads : read.ReadsDisk 1 ⟨.register, 0⟩ := ⟨_, hinstruction, hlast, rfl⟩
  obtain ⟨hobtains, hkept⟩ := request.disk_remembers recalling 4
  refine ⟨write, beside, enter, read, hattempts, hwrites, hwritesBeside, hdepth, ?_, ?_⟩
  · refine hobtains [] [beside, enter] [] write read 1 (-300) _ hattempts hwrites hreads ?_
    intro attempt hattempt other value hother
    simp only [List.mem_cons, List.not_mem_nil, or_false] at hattempt
    rcases hattempt with rfl | rfl
    · obtain ⟨rfl, rfl⟩ := hwritesBeside.unique hother
      exact Or.inl (by decide)
    · exact absurd hother (Attempt.not_writesDisk henter)
  · refine (hkept 0 fun attempt hattempt offset value hcovering => ?_).trans (by decide)
    rw [hattempts] at hattempt
    simp only [List.mem_cons, List.not_mem_nil, or_false] at hattempt
    rcases hattempt with rfl | rfl | rfl | rfl
    · obtain ⟨rfl, rfl⟩ := hwrites.unique hcovering
      exact fun hcovers => absurd hcovers.1 (by decide)
    · obtain ⟨rfl, rfl⟩ := hwritesBeside.unique hcovering
      exact fun hcovers => absurd hcovers.1 (by decide)
    · exact absurd hcovering (Attempt.not_writesDisk henter)
    · exact absurd hcovering (Attempt.not_writesDisk hread)

end Microcomputer
