import Mathlib.Data.List.Basic
import Microcomputer.Engine

/-!
# What one statement can do

`Yields` says how an execution may end from a session, and its rules take an execution apart. From them
follow where a statement passes control, the faults that it can raise, and the parts of the machine that
no statement changes.
-/
namespace Microcomputer

/-- One case for each instruction, with an operand for each of its slots. -/
@[elab_as_elim]
theorem Statement.byInstruction {motive : Statement → Prop}
    (move : ∀ condition source target, motive ⟨.move, condition, [source, target], rfl⟩)
    (compute : ∀ operation condition left right target,
      motive ⟨.compute operation, condition, [left, right, target], rfl⟩)
    (receive : ∀ condition target, motive ⟨.receive, condition, [target], rfl⟩)
    (send : ∀ condition source, motive ⟨.send, condition, [source], rfl⟩)
    (compare : ∀ condition left right, motive ⟨.compare, condition, [left, right], rfl⟩)
    (branch : ∀ condition target, motive ⟨.branch, condition, [target], rfl⟩)
    (diskRead : ∀ condition offset target, motive ⟨.diskRead, condition, [offset, target], rfl⟩)
    (diskWrite : ∀ condition source offset, motive ⟨.diskWrite, condition, [source, offset], rfl⟩)
    (execute : ∀ condition offset length, motive ⟨.execute, condition, [offset, length], rfl⟩)
    (stop : ∀ condition, motive ⟨.stop, condition, [], rfl⟩)
    (diskLoad : ∀ condition source target length,
      motive ⟨.diskLoad, condition, [source, target, length], rfl⟩)
    (statement : Statement) : motive statement := by
  obtain ⟨instruction, condition, operands, h⟩ := statement
  cases instruction
  case move => obtain ⟨a, b, rfl⟩ := List.length_eq_two.mp h; exact move condition a b
  case compute operation =>
    obtain ⟨a, b, c, rfl⟩ := List.length_eq_three.mp h
    exact compute operation condition a b c
  case receive => obtain ⟨a, rfl⟩ := List.length_eq_one_iff.mp h; exact receive condition a
  case send => obtain ⟨a, rfl⟩ := List.length_eq_one_iff.mp h; exact send condition a
  case compare => obtain ⟨a, b, rfl⟩ := List.length_eq_two.mp h; exact compare condition a b
  case branch => obtain ⟨a, rfl⟩ := List.length_eq_one_iff.mp h; exact branch condition a
  case diskRead => obtain ⟨a, b, rfl⟩ := List.length_eq_two.mp h; exact diskRead condition a b
  case diskWrite => obtain ⟨a, b, rfl⟩ := List.length_eq_two.mp h; exact diskWrite condition a b
  case execute => obtain ⟨a, b, rfl⟩ := List.length_eq_two.mp h; exact execute condition a b
  case stop => obtain rfl := List.length_eq_zero_iff.mp h; exact stop condition
  case diskLoad =>
    obtain ⟨a, b, c, rfl⟩ := List.length_eq_three.mp h
    exact diskLoad condition a b c

namespace Execution

variable {α β γ : Type}

section Running

variable {execution : Execution β} {next : β → Execution α} {session after : Session}

theorem bind_ok {value : β} (h : execution session = .ok value after) :
    (execution >>= next) session = next value after := by
  have he : (execution >>= next) session = EStateM.bind execution next session := rfl
  rw [he, EStateM.bind, h]

theorem bind_error {fault : Fault} (h : execution session = .error fault after) :
    (execution >>= next) session = .error fault after := by
  have he : (execution >>= next) session = EStateM.bind execution next session := rfl
  rw [he, EStateM.bind, h]

theorem observe_ok {look : Machine → Except Fault α} {value : α}
    (h : look session.machine = .ok value) : observe look session = .ok value session := by
  rw [observe, h]

theorem observe_error {look : Machine → Except Fault α} {fault : Fault}
    (h : look session.machine = .error fault) : observe look session = .error fault session := by
  rw [observe, h]

end Running

/-- From `session` the execution answers as `good` says, or fails as `bad` says. -/
def Yields (execution : Execution α) (good : α → Session → Prop) (bad : Fault → Session → Prop)
    (session : Session) : Prop :=
  match execution session with
  | .ok value after => good value after
  | .error fault after => bad fault after

section Rules

variable {good : α → Session → Prop} {bad : Fault → Session → Prop} {session after : Session}

theorem Yields.of_ok {execution : Execution α} {value : α} (h : Yields execution good bad session)
    (he : execution session = .ok value after) : good value after := by
  rw [Yields, he] at h
  exact h

theorem Yields.of_error {execution : Execution α} {fault : Fault}
    (h : Yields execution good bad session) (he : execution session = .error fault after) :
    bad fault after := by
  rw [Yields, he] at h
  exact h

theorem Yields.mono {execution : Execution α} {good' : α → Session → Prop}
    {bad' : Fault → Session → Prop} (h : Yields execution good bad session)
    (hgood : ∀ value after, good value after → good' value after)
    (hbad : ∀ fault after, bad fault after → bad' fault after) :
    Yields execution good' bad' session := by
  unfold Yields at h ⊢
  cases he : execution session with
  | ok value after => rw [he] at h; exact hgood value after h
  | error fault after => rw [he] at h; exact hbad fault after h

theorem yields_of_forall {execution : Execution α} (hgood : ∀ value after, good value after)
    (hbad : ∀ fault after, bad fault after) : Yields execution good bad session := by
  unfold Yields
  cases execution session with
  | ok value after => exact hgood value after
  | error fault after => exact hbad fault after

theorem yields_bind {execution : Execution β} {next : β → Execution α} :
    Yields (execution >>= next) good bad session ↔
      Yields execution (fun value => Yields (next value) good bad) bad session := by
  unfold Yields
  cases he : execution session with
  | ok value after => rw [bind_ok he]
  | error fault after => rw [bind_error he]

theorem yields_observe {look : Machine → Except Fault α} :
    Yields (observe look) good bad session ↔
      (∀ value, look session.machine = .ok value → good value session) ∧
      (∀ fault, look session.machine = .error fault → bad fault session) := by
  unfold Yields observe
  cases look session.machine <;> simp

theorem yields_observe_bind {look : Machine → Except Fault β} {next : β → Execution α} :
    Yields (observe look >>= next) good bad session ↔
      (∀ value, look session.machine = .ok value → Yields (next value) good bad session) ∧
      (∀ fault, look session.machine = .error fault → bad fault session) :=
  yields_bind.trans yields_observe

end Rules

/-- The execution leaves this view of the machine as it is, also when it fails. -/
def Keeps (view : Machine → γ) (execution : Execution α) : Prop :=
  ∀ session, Yields execution (fun _ after => view after.machine = view session.machine)
    (fun _ after => view after.machine = view session.machine) session

section Keeps

variable {view : Machine → γ}

theorem keeps_pure {value : α} : Keeps view (pure value : Execution α) :=
  fun _ => rfl

theorem keeps_throw {fault : Fault} : Keeps view (throw fault : Execution α) :=
  fun _ => rfl

theorem keeps_observe {look : Machine → Except Fault α} : Keeps view (observe look) :=
  fun _ => yields_observe.mpr ⟨fun _ _ => rfl, fun _ _ => rfl⟩

theorem keeps_note {event : Event} : Keeps view (note event) :=
  fun _ => rfl

theorem keeps_update {change : Machine → Machine} (h : ∀ machine, view (change machine) = view machine) :
    Keeps view (update change) :=
  fun session => h session.machine

theorem Keeps.bind {execution : Execution β} {next : β → Execution α} (h : Keeps view execution)
    (hnext : ∀ value, Keeps view (next value)) : Keeps view (execution >>= next) := by
  intro session
  refine yields_bind.mpr ((h session).mono (fun value after hv => ?_) fun _ _ hv => hv)
  exact (hnext value after).mono (fun _ _ hw => hw.trans hv) fun _ _ hw => hw.trans hv

theorem keeps_load {operand : Operand} : Keeps view (load operand) :=
  keeps_observe

theorem keeps_store {operand : Operand} {value : Int32}
    (hregister : ∀ machine slot, view { machine with registers := machine.registers.put slot value } =
      view machine)
    (hram : ∀ machine start data, view { machine with ram := machine.ram.put start data } =
      view machine) :
    Keeps view (store operand value) := by
  refine keeps_observe.bind fun place => ?_
  cases place with
  | register slot => exact keeps_update fun machine => hregister machine slot
  | ram start word => exact keeps_update fun machine => hram machine start word.bytes

theorem keeps_receive (h : ∀ machine rest,
      view { machine with console := { machine.console with input := rest } } = view machine) :
    Keeps view receive := by
  refine keeps_observe.bind fun input => ?_
  cases input with
  | cons byte rest => exact (keeps_update fun machine => h machine rest).bind fun _ => keeps_pure
  | nil => exact keeps_observe.bind fun _ => keeps_note.bind fun _ => keeps_pure

theorem keeps_send {value : Int32}
    (h : ∀ machine byte, view { machine with console := machine.console.push byte } = view machine) :
    Keeps view (send value) :=
  keeps_observe.bind fun _ => keeps_update fun machine => h machine _

theorem keeps_setCompare {value : Int32} (h : ∀ machine,
      view { machine with registers := { machine.registers with compare := value } } = view machine) :
    Keeps view (setCompare value) :=
  keeps_update h

theorem keeps_writeDisk {offset value : Int32} (h : ∀ machine start data, view { machine with
      disk := { machine.disk with buffer := machine.disk.buffer.put start data } } = view machine) :
    Keeps view (writeDisk offset value) :=
  keeps_observe.bind fun place => keeps_update fun machine => h machine place.1 place.2.bytes

theorem keeps_copyFromDisk {source target length : Int32}
    (h : ∀ machine start data, view { machine with ram := machine.ram.put start data } = view machine) :
    Keeps view (copyFromDisk source target length) :=
  keeps_observe.bind fun span =>
    (keeps_update fun machine => h machine span.1 span.2).bind fun _ => keeps_note

theorem keeps_enter {offset length : Int32} {depth resume : Nat} :
    Keeps view (enter offset length depth resume) := by
  unfold enter
  by_cases hl : length = 0
  · rw [if_pos hl]
    exact keeps_pure
  · rw [if_neg hl]
    exact keeps_observe.bind fun _ => keeps_note.bind fun _ => keeps_pure

end Keeps
end Execution

open Execution

/-- The instruction stores a value into the last of its operands. -/
def Instruction.stores : Instruction → Bool
  | .move | .compute _ | .receive | .diskRead => true
  | .send | .compare | .branch | .diskWrite | .execute | .stop | .diskLoad => false

/-- A statement keeps a view of the machine that no change of the kind its instruction makes can alter. -/
theorem Statement.perform_keeps {γ : Type} {view : Machine → γ} (statement : Statement)
    (hregister : statement.instruction.stores = true → ∀ machine slot value,
      view { machine with registers := machine.registers.put slot value } = view machine)
    (hram : statement.instruction.stores = true ∨ statement.instruction = .diskLoad →
      ∀ machine start data, view { machine with ram := machine.ram.put start data } = view machine)
    (hcompare : statement.instruction = .compare → ∀ machine value,
      view { machine with registers := { machine.registers with compare := value } } = view machine)
    (hinput : statement.instruction = .receive → ∀ machine rest,
      view { machine with console := { machine.console with input := rest } } = view machine)
    (houtput : statement.instruction = .send → ∀ machine byte,
      view { machine with console := machine.console.push byte } = view machine)
    (hdisk : statement.instruction = .diskWrite → ∀ machine start data,
      view { machine with
        disk := { machine.disk with buffer := machine.disk.buffer.put start data } } = view machine)
    (next depth : Nat) : Keeps view (statement.perform next depth) := by
  have hstore (h : statement.instruction.stores = true) (operand : Operand) (value : Int32) :
      Keeps view (store operand value) :=
    keeps_store (fun machine slot => hregister h machine slot value) (hram (Or.inl h))
  cases statement using Statement.byInstruction with
  | move condition source target =>
    exact keeps_load.bind fun value => (hstore rfl target value).bind fun _ => keeps_pure
  | compute operation condition left right target =>
    refine keeps_load.bind fun a => keeps_load.bind fun b => keeps_observe.bind fun result => ?_
    exact (hstore rfl target result).bind fun _ => keeps_note.bind fun _ => keeps_pure
  | receive condition target =>
    refine (keeps_receive (hinput rfl)).bind fun value => ?_
    exact (hstore rfl target value).bind fun _ => keeps_pure
  | send condition source =>
    refine keeps_load.bind fun value => ?_
    exact (keeps_send (houtput rfl)).bind fun _ => keeps_pure
  | compare condition left right =>
    refine keeps_load.bind fun a => keeps_load.bind fun b => ?_
    refine (keeps_setCompare fun machine => hcompare rfl machine _).bind fun _ => ?_
    exact keeps_note.bind fun _ => keeps_pure
  | branch condition target =>
    refine keeps_load.bind fun offset => ?_
    by_cases h : offset < 0
    · simp only [h, ↓reduceIte]
      exact keeps_throw
    · simp only [h, ↓reduceIte]
      exact keeps_pure
  | diskRead condition offset target =>
    refine keeps_load.bind fun address => keeps_observe.bind fun value => ?_
    exact (hstore rfl target value).bind fun _ => keeps_pure
  | diskWrite condition source offset =>
    refine keeps_load.bind fun value => keeps_load.bind fun address => ?_
    exact (keeps_writeDisk (hdisk rfl)).bind fun _ => keeps_pure
  | execute condition offset length =>
    exact keeps_load.bind fun start => keeps_load.bind fun size => keeps_enter
  | stop condition => exact keeps_pure
  | diskLoad condition source target length =>
    refine keeps_load.bind fun s => keeps_load.bind fun d => keeps_load.bind fun n => ?_
    exact (keeps_copyFromDisk (hram (Or.inr rfl))).bind fun _ => keeps_pure

section Kept

variable {statement : Statement} {next depth : Nat}

theorem Statement.perform_keeps_compare (h : statement.instruction ≠ .compare) :
    Keeps (·.registers.compare) (statement.perform next depth) :=
  statement.perform_keeps (fun _ _ _ _ => rfl) (fun _ _ _ _ => rfl) (fun hcompare => absurd hcompare h)
    (fun _ _ _ => rfl) (fun _ _ _ => rfl) (fun _ _ _ _ => rfl) next depth

theorem Statement.perform_keeps_disk (h : statement.instruction ≠ .diskWrite) :
    Keeps (·.disk) (statement.perform next depth) :=
  statement.perform_keeps (fun _ _ _ _ => rfl) (fun _ _ _ _ => rfl) (fun _ _ _ => rfl) (fun _ _ _ => rfl)
    (fun _ _ _ => rfl) (fun hdisk => absurd hdisk h) next depth

theorem Statement.perform_keeps_input (h : statement.instruction ≠ .receive) :
    Keeps (·.console.input) (statement.perform next depth) :=
  statement.perform_keeps (fun _ _ _ _ => rfl) (fun _ _ _ _ => rfl) (fun _ _ _ => rfl)
    (fun hreceive => absurd hreceive h) (fun _ _ _ => rfl) (fun _ _ _ _ => rfl) next depth

theorem Statement.perform_keeps_output (h : statement.instruction ≠ .send) :
    Keeps (·.console.output) (statement.perform next depth) :=
  statement.perform_keeps (fun _ _ _ _ => rfl) (fun _ _ _ _ => rfl) (fun _ _ _ => rfl) (fun _ _ _ => rfl)
    (fun hsend => absurd hsend h) (fun _ _ _ _ => rfl) next depth

/-- Registers and RAM are for statements that store, and RAM for those that copy into it. -/
theorem Statement.perform_keeps_storage (hstores : statement.instruction.stores = false)
    (hloads : statement.instruction ≠ .diskLoad) :
    Keeps (fun machine => (machine.registers.values, machine.ram)) (statement.perform next depth) :=
  statement.perform_keeps (fun h => absurd h (by simp [hstores]))
    (fun h => absurd h (by simp [hstores, hloads])) (fun _ _ _ => rfl) (fun _ _ _ => rfl)
    (fun _ _ _ => rfl) (fun _ _ _ _ => rfl) next depth

/-- A statement that branches or stops changes nothing. -/
theorem Statement.perform_keeps_machine
    (h : statement.instruction = .branch ∨ statement.instruction = .stop) :
    Keeps id (statement.perform next depth) := by
  apply statement.perform_keeps
  all_goals
    intro hother
    rcases h with h | h <;> simp [h, Instruction.stores] at hother

end Kept

/-- The sizes and limits that a machine has for good. -/
structure Shape where
  registers : Nat
  ram : Nat
  ramRegion : Region
  disk : Nat
  diskRegion : Region
  path : String
  maxDepth : Nat
  deriving DecidableEq, Repr

def Machine.shape (machine : Machine) : Shape where
  registers := machine.registers.size
  ram := machine.ram.size
  ramRegion := machine.ram.region
  disk := machine.disk.buffer.size
  diskRegion := machine.disk.buffer.region
  path := machine.disk.path
  maxDepth := machine.maxDepth

/-- No statement changes the shape of the machine. -/
theorem Statement.perform_keeps_shape (statement : Statement) (next depth : Nat) :
    Keeps Machine.shape (statement.perform next depth) :=
  statement.perform_keeps (fun _ _ _ _ => by simp [Machine.shape])
    (fun _ _ _ _ => by simp [Machine.shape]) (fun _ _ _ => rfl) (fun _ _ _ => rfl) (fun _ _ _ => rfl)
    (fun _ _ _ _ => by simp [Machine.shape]) next depth

end Microcomputer
