import Microcomputer.Proofs.Execution

/-!
# Where a statement passes control

A statement goes on to the next one unless it is a branch, starts a nested stream or ends its own, and of
the faults that show a stream to have left its statements it can raise only that of a branch.
-/
namespace Microcomputer

/-- Faults of bytes that are no statement, or of a branch to no offset. -/
def Fault.isStray : Fault → Bool
  | .invalidOpcode _ | .invalidCondition _ | .invalidMode _ | .truncatedStatement .. |
    .invalidBranchTarget _ => true
  | _ => false

/-- The answer, if it is a fault, is none of a stray stream. -/
def Regular {α : Type} (answer : Except Fault α) : Prop :=
  ∀ fault, answer = .error fault → fault.isStray = false

section Regular

variable {α β : Type}

theorem regular_ok {value : α} : Regular (.ok value) := by
  intro fault h
  cases h

theorem regular_error {fault : Fault} (h : fault.isStray = false) :
    Regular (.error fault : Except Fault α) := by
  intro other he
  cases he
  exact h

theorem Regular.bind {answer : Except Fault β} {next : β → Except Fault α} (h : Regular answer)
    (hnext : ∀ value, Regular (next value)) : Regular (answer >>= next) := by
  cases answer with
  | error fault => exact regular_error (h fault rfl)
  | ok value => exact hnext value

theorem regular_ite {p : Prop} [Decidable p] {yes no : Except Fault α} (hyes : Regular yes)
    (hno : Regular no) : Regular (if p then yes else no) := by
  by_cases h : p
  · rw [if_pos h]; exact hyes
  · rw [if_neg h]; exact hno

theorem Memory.regular_locate (memory : Memory) (address : Int) (length : Nat) :
    Regular (memory.locate address length) :=
  regular_ite regular_ok (regular_error rfl)

theorem Registers.regular_locate (registers : Registers) (index : Int32) :
    Regular (registers.locate index) :=
  regular_ite regular_ok (regular_error rfl)

theorem Registers.regular_read (registers : Registers) (index : Int32) :
    Regular (registers.read index) :=
  (registers.regular_locate index).bind fun _ => regular_ok

theorem Memory.regular_readNumber (memory : Memory) (address : Int32) :
    Regular (memory.readNumber address) :=
  (memory.regular_locate _ _).bind fun _ => regular_ok

theorem Word.regular_encode (number : Int32) : Regular (Word.encode number) :=
  regular_ite regular_ok (regular_error rfl)

theorem Memory.regular_placeNumber (memory : Memory) (address value : Int32) :
    Regular (memory.placeNumber address value) :=
  (memory.regular_locate _ _).bind fun _ => (Word.regular_encode value).bind fun _ => regular_ok

theorem Operand.regular_read (operand : Operand) (registers : Registers) (ram : Memory) :
    Regular (operand.read registers ram) := by
  obtain ⟨mode, payload⟩ := operand
  cases mode with
  | register => exact registers.regular_read payload
  | registerValue => exact (registers.regular_read payload).bind fun _ => ram.regular_readNumber _
  | pointer => exact ram.regular_readNumber payload
  | constant => exact regular_ok

theorem Operand.regular_destination (operand : Operand) (registers : Registers) (ram : Memory)
    (value : Int32) : Regular (operand.destination registers ram value) := by
  obtain ⟨mode, payload⟩ := operand
  cases mode with
  | register => exact (registers.regular_locate payload).bind fun _ => regular_ok
  | registerValue =>
    refine (registers.regular_read payload).bind fun address => ?_
    exact (ram.regular_placeNumber address value).bind fun _ => regular_ok
  | pointer => exact (ram.regular_placeNumber payload value).bind fun _ => regular_ok
  | constant => exact regular_error rfl

theorem Arithmetic.regular_apply (operation : Arithmetic) (a b : Int32) :
    Regular (operation.apply a b) := by
  cases operation with
  | divide | remainder => exact regular_ite (regular_error rfl) regular_ok
  | _ => exact regular_ok

end Regular

namespace Execution

theorem regular_copySpan (machine : Machine) (source destination length : Int32) :
    Regular (copySpan machine source destination length) := by
  refine regular_ite (regular_error rfl) (regular_ite (regular_error rfl) ?_)
  refine Regular.bind ?_ fun data => (machine.ram.regular_locate _ _).bind fun _ => regular_ok
  exact (machine.disk.buffer.regular_locate _ _).bind fun _ => regular_ok

theorem regular_nestedStart (machine : Machine) (offset length : Int32) (depth : Nat) :
    Regular (nestedStart machine offset length depth) :=
  regular_ite (regular_error rfl) <| regular_ite (regular_error rfl) <| regular_ite (regular_error rfl) <|
    machine.ram.regular_locate _ _

variable {α β : Type}

/-- No fault of the execution is one of a stray stream. -/
def Steady (execution : Execution α) : Prop :=
  ∀ session, Yields execution (fun _ _ => True) (fun fault _ => fault.isStray = false) session

theorem steady_pure {value : α} : Steady (pure value : Execution α) :=
  fun _ => trivial

theorem steady_observe {look : Machine → Except Fault α} (h : ∀ machine, Regular (look machine)) :
    Steady (observe look) :=
  fun session => yields_observe.mpr ⟨fun _ _ => trivial, fun fault hf => h session.machine fault hf⟩

theorem steady_note {event : Event} : Steady (note event) :=
  fun _ => trivial

theorem steady_update {change : Machine → Machine} : Steady (update change) :=
  fun _ => trivial

theorem Steady.bind {execution : Execution β} {next : β → Execution α} (h : Steady execution)
    (hnext : ∀ value, Steady (next value)) : Steady (execution >>= next) :=
  fun session => yields_bind.mpr ((h session).mono (fun value after _ => hnext value after)
    fun _ _ hf => hf)

theorem steady_load {operand : Operand} : Steady (load operand) :=
  steady_observe fun machine => operand.regular_read machine.registers machine.ram

theorem steady_store {operand : Operand} {value : Int32} : Steady (store operand value) := by
  refine (steady_observe fun machine =>
    operand.regular_destination machine.registers machine.ram value).bind fun place => ?_
  cases place <;> exact steady_update

theorem steady_receive : Steady receive := by
  refine (steady_observe fun _ => regular_ok).bind fun input => ?_
  cases input with
  | cons byte rest => exact steady_update.bind fun _ => steady_pure
  | nil =>
    refine (steady_observe fun machine => ?_).bind fun _ => steady_note.bind fun _ => steady_pure
    cases machine.console.atEnd with
    | ok _ => exact regular_ok
    | error cause => exact regular_error rfl

theorem steady_enter {offset length : Int32} {depth resume : Nat} :
    Steady (enter offset length depth resume) := by
  unfold enter
  by_cases hl : length = 0
  · rw [if_pos hl]
    exact steady_pure
  · rw [if_neg hl]
    exact (steady_observe fun machine => regular_nestedStart machine offset length depth).bind
      fun _ => steady_note.bind fun _ => steady_pure

/-- Every answer of the execution satisfies `p`. -/
def Answers (p : α → Prop) (execution : Execution α) : Prop :=
  ∀ session, Yields execution (fun value _ => p value) (fun _ _ => True) session

theorem answers_pure {p : α → Prop} {value : α} (h : p value) : Answers p (pure value) :=
  fun _ => h

theorem answers_bind {p : α → Prop} {execution : Execution β} {next : β → Execution α}
    (h : ∀ value, Answers p (next value)) : Answers p (execution >>= next) :=
  fun _ => yields_bind.mpr (yields_of_forall h fun _ _ => trivial)

end Execution

open Execution

/-- Only a branch can raise a fault of a stray stream. -/
theorem Statement.perform_steady {statement : Statement} (h : statement.instruction ≠ .branch)
    (next depth : Nat) : Steady (statement.perform next depth) := by
  cases statement using Statement.byInstruction with
  | move condition source target =>
    exact steady_load.bind fun _ => steady_store.bind fun _ => steady_pure
  | compute operation condition left right target =>
    refine steady_load.bind fun a => steady_load.bind fun b => ?_
    exact (steady_observe fun _ => operation.regular_apply a b).bind fun _ =>
      steady_store.bind fun _ => steady_note.bind fun _ => steady_pure
  | receive condition target =>
    exact steady_receive.bind fun _ => steady_store.bind fun _ => steady_pure
  | send condition source =>
    refine steady_load.bind fun value => Steady.bind ?_ fun _ => steady_pure
    exact (steady_observe fun _ => regular_ite regular_ok (regular_error rfl)).bind
      fun _ => steady_update
  | compare condition left right =>
    exact steady_load.bind fun _ => steady_load.bind fun _ => steady_update.bind fun _ =>
      steady_note.bind fun _ => steady_pure
  | branch condition target => exact absurd rfl h
  | diskRead condition offset target =>
    refine steady_load.bind fun address => ?_
    exact (steady_observe fun machine => machine.disk.buffer.regular_readNumber address).bind
      fun _ => steady_store.bind fun _ => steady_pure
  | diskWrite condition source offset =>
    refine steady_load.bind fun value => steady_load.bind fun address => ?_
    refine Steady.bind ?_ fun _ => steady_pure
    exact (steady_observe fun machine => machine.disk.buffer.regular_placeNumber address value).bind
      fun _ => steady_update
  | execute condition offset length =>
    exact steady_load.bind fun _ => steady_load.bind fun _ => steady_enter
  | stop condition => exact steady_pure
  | diskLoad condition source target length =>
    refine steady_load.bind fun s => steady_load.bind fun d => steady_load.bind fun n => ?_
    refine Steady.bind ?_ fun _ => steady_pure
    exact (steady_observe fun machine => regular_copySpan machine s d n).bind
      fun _ => steady_update.bind fun _ => steady_note

/-- Where a statement may pass control; `next` is the offset after it. -/
def Instruction.Passes (instruction : Instruction) (next : Nat) : Transfer → Prop
  | .goto offset => instruction ≠ .stop ∧ (instruction ≠ .branch → offset = next)
  | .call _ _ resume => instruction = .execute ∧ resume = next
  | .leave => instruction = .stop

theorem Statement.perform_passes (statement : Statement) (next depth : Nat) :
    Answers (statement.instruction.Passes next) (statement.perform next depth) := by
  have hgoto {instruction : Instruction} (hi : instruction ≠ .stop) :
      Answers (instruction.Passes next) (pure (.goto next)) := answers_pure ⟨hi, fun _ => rfl⟩
  cases statement using Statement.byInstruction with
  | move | receive | send => exact answers_bind fun _ => answers_bind fun _ => hgoto (by simp)
  | compute =>
    exact answers_bind fun _ => answers_bind fun _ => answers_bind fun _ => answers_bind fun _ =>
      answers_bind fun _ => hgoto (by simp)
  | compare =>
    exact answers_bind fun _ => answers_bind fun _ => answers_bind fun _ => answers_bind fun _ =>
      hgoto (by simp)
  | branch =>
    refine answers_bind fun offset => ?_
    by_cases h : offset < 0
    · simp only [h, ↓reduceIte]
      exact fun _ => trivial
    · simp only [h, ↓reduceIte]
      exact answers_pure ⟨by simp, fun hb => absurd rfl hb⟩
  | diskRead | diskWrite =>
    exact answers_bind fun _ => answers_bind fun _ => answers_bind fun _ => hgoto (by simp)
  | execute =>
    refine answers_bind fun _ => answers_bind fun length => ?_
    unfold enter
    by_cases hl : length = 0
    · rw [if_pos hl]
      exact hgoto (by simp)
    · rw [if_neg hl]
      exact answers_bind fun _ => answers_bind fun _ => answers_pure ⟨rfl, rfl⟩
  | stop => exact answers_pure rfl
  | diskLoad =>
    exact answers_bind fun _ => answers_bind fun _ => answers_bind fun _ => answers_bind fun _ =>
      hgoto (by simp)

/-- A branch goes to the offset that it reads, if that is not negative. -/
theorem Statement.perform_branch {condition : Condition} {target : Operand}
    {arity : [target].length = Instruction.arity .branch} {session : Session} {value : Int32}
    (next depth : Nat)
    (h : target.read session.machine.registers session.machine.ram = .ok value)
    (hv : 0 ≤ value) :
    (⟨.branch, condition, [target], arity⟩ : Statement).perform next depth session =
      .ok (.goto value.toInt.toNat) session := by
  have hload : load target session = .ok value session := observe_ok h
  refine (bind_ok hload).trans ?_
  rw [if_neg (Int32.not_lt.mpr hv)]
  rfl

/-- A branch that does not fail goes to an offset that it has read. -/
theorem Statement.perform_branch_target {condition : Condition} {target : Operand}
    {arity : [target].length = Instruction.arity .branch} {next depth : Nat} {session : Session} :
    Yields ((⟨.branch, condition, [target], arity⟩ : Statement).perform next depth)
      (fun transfer _ => ∃ value : Int32, 0 ≤ value.toInt ∧ transfer = .goto value.toInt.toNat ∧
        target.read session.machine.registers session.machine.ram = .ok value)
      (fun _ _ => True) session := by
  refine yields_observe_bind.mpr ⟨fun value hread => ?_, fun _ _ => trivial⟩
  by_cases hnegative : value < 0
  · rw [if_pos hnegative]
    trivial
  · rw [if_neg hnegative]
    exact ⟨value, Int32.le_iff_toInt_le.mp (Int32.not_lt.mp hnegative), rfl, hread⟩

/-- A branch to a constant goes there. -/
theorem Statement.perform_jump {statement : Statement} {address : Nat}
    (hbranch : statement.instruction = .branch)
    (hoperands : statement.operands = [⟨.constant, Int32.ofNat address⟩]) (h : address ≤ Word.maxMagnitude)
    (next depth : Nat) (session : Session) :
    statement.perform next depth session = .ok (.goto address) session := by
  obtain ⟨instruction, condition, operands, arity⟩ := statement
  obtain rfl : instruction = .branch := hbranch
  obtain rfl : operands = _ := hoperands
  have hlimit : Word.maxMagnitude < 2 ^ 31 := by decide
  have hvalue : (Int32.ofNat address).toInt = address := Int32.toInt_ofNat_of_lt (by omega)
  have hsign : 0 ≤ Int32.ofNat address := by
    rw [Int32.le_iff_toInt_le, hvalue]
    exact Int.natCast_nonneg address
  have hread : (Operand.mk .constant (Int32.ofNat address)).read session.machine.registers
      session.machine.ram = .ok (Int32.ofNat address) := rfl
  rw [perform_branch next depth hread hsign, hvalue]
  rfl

namespace Code

variable {code : Code} {offset depth : Nat} {session : Session}

theorem executeAt_of_execute {statement : Statement}
    (h : code.upcoming offset session.machine = .ok (.execute statement)) :
    code.executeAt offset depth session =
      statement.perform (offset + statement.length) depth
        (session.note (.executed depth offset statement)) :=
  bind_ok (observe_ok h)

theorem executeAt_of_skip {instruction : Instruction} {condition : Condition}
    (h : code.upcoming offset session.machine = .ok (.skip instruction condition)) :
    code.executeAt offset depth session =
      .ok (.goto (offset + instruction.length)) (session.note
        (.skipped depth offset instruction condition session.machine.registers.compare)) :=
  bind_ok (observe_ok h)

theorem executeAt_of_error {fault : Fault}
    (h : code.upcoming offset session.machine = .error fault) :
    code.executeAt offset depth session = .error fault session :=
  bind_error (observe_error h)

/-- What is executed is decided by what comes next alone. -/
theorem executeAt_congr {other : Code}
    (h : other.upcoming offset session.machine = code.upcoming offset session.machine) :
    other.executeAt offset depth session = code.executeAt offset depth session := by
  cases hu : code.upcoming offset session.machine with
  | error fault => rw [executeAt_of_error hu, executeAt_of_error (h.trans hu)]
  | ok upcoming =>
    cases upcoming with
    | execute statement => rw [executeAt_of_execute hu, executeAt_of_execute (h.trans hu)]
    | skip instruction condition => rw [executeAt_of_skip hu, executeAt_of_skip (h.trans hu)]

/-- A statement that comes through was executed or skipped, and passes control as its instruction may. -/
theorem executeAt_passes {transfer : Transfer} {after : Session}
    (h : code.executeAt offset depth session = .ok transfer after) :
    (∃ statement, code.upcoming offset session.machine = .ok (.execute statement) ∧
      statement.instruction.Passes (offset + statement.length) transfer) ∨
    (∃ instruction condition,
      code.upcoming offset session.machine = .ok (.skip instruction condition) ∧
      transfer = .goto (offset + instruction.length)) := by
  cases hu : code.upcoming offset session.machine with
  | error fault =>
    rw [executeAt_of_error hu] at h
    cases h
  | ok upcoming =>
    cases upcoming with
    | execute statement =>
      rw [executeAt_of_execute hu] at h
      exact Or.inl ⟨statement, rfl, (statement.perform_passes _ depth _).of_ok h⟩
    | skip instruction condition =>
      rw [executeAt_of_skip hu] at h
      cases h
      exact Or.inr ⟨instruction, condition, rfl, rfl⟩

theorem executeAt_keeps_shape (code : Code) (offset depth : Nat) :
    Keeps Machine.shape (code.executeAt offset depth) := by
  refine keeps_observe.bind fun upcoming => ?_
  cases upcoming with
  | execute statement => exact keeps_note.bind fun _ => statement.perform_keeps_shape _ _
  | skip instruction condition =>
    exact keeps_observe.bind fun _ => keeps_note.bind fun _ => keeps_pure

end Code

end Microcomputer
