import Microcomputer.Proofs.Recursion

/-!
# Statements that fail

A statement checks everything that can fail before it changes the machine. So one that fails leaves the
machine as it found it, and a run that fails ends with the machine that its last statement found. Only a
byte that was received before the failure is gone from the console.
-/
namespace Microcomputer

/-- The machine with `rest` still to be read from its console. -/
def Machine.withInput (machine : Machine) (rest : List UInt8) : Machine :=
  { machine with console := { machine.console with input := rest } }

/-- The later machine is the earlier one, or the earlier one less a byte of console input. -/
def Machine.MayReceive (before after : Machine) : Prop :=
  after = before ∨ ∃ byte rest, before.console.input = byte :: rest ∧ after = before.withInput rest

section MayReceive

variable {before after : Machine}

theorem Machine.MayReceive.same (h : before.MayReceive after) :
    after.registers = before.registers ∧ after.ram = before.ram ∧ after.disk = before.disk := by
  rcases h with rfl | ⟨_, _, -, rfl⟩ <;> exact ⟨rfl, rfl, rfl⟩

theorem Machine.MayReceive.input (h : before.MayReceive after) :
    after.console.input = before.console.input ∨
      ∃ byte, before.console.input = byte :: after.console.input := by
  rcases h with rfl | ⟨byte, _, hinput, rfl⟩
  · exact Or.inl rfl
  · exact Or.inr ⟨byte, hinput⟩

end MayReceive

namespace Execution

variable {α β : Type}

/-- If the execution fails, the machine is as it was. -/
def Atomic (execution : Execution α) : Prop :=
  ∀ session, Yields execution (fun _ _ => True)
    (fun _ after => after.machine = session.machine) session

/-- The execution never fails. -/
def Succeeds (execution : Execution α) : Prop :=
  ∀ session, Yields execution (fun _ _ => True) (fun _ _ => False) session

theorem succeeds_pure {value : α} : Succeeds (pure value : Execution α) :=
  fun _ => trivial

theorem succeeds_note {event : Event} : Succeeds (note event) :=
  fun _ => trivial

theorem succeeds_update {change : Machine → Machine} : Succeeds (update change) :=
  fun _ => trivial

theorem Succeeds.bind {execution : Execution β} {next : β → Execution α} (h : Succeeds execution)
    (hnext : ∀ value, Succeeds (next value)) : Succeeds (execution >>= next) :=
  fun session => yields_bind.mpr <|
    (h session).mono (fun value after _ => hnext value after) fun _ _ hf => hf

theorem Succeeds.atomic {execution : Execution α} (h : Succeeds execution) : Atomic execution :=
  fun session => (h session).mono (fun _ _ _ => trivial) fun _ _ hf => hf.elim

theorem Keeps.atomic {execution : Execution α} (h : Keeps id execution) : Atomic execution :=
  fun session => (h session).mono (fun _ _ _ => trivial) fun _ _ hf => hf

/-- What only looks at the machine may come before what is atomic. -/
theorem Keeps.bind_atomic {execution : Execution β} {next : β → Execution α}
    (h : Keeps id execution) (hnext : ∀ value, Atomic (next value)) : Atomic (execution >>= next) := by
  intro session
  refine yields_bind.mpr ((h session).mono (fun value after hsame => ?_) fun _ _ hf => hf)
  have hmachine : after.machine = session.machine := hsame
  exact (hnext value after).mono (fun _ _ _ => trivial) fun _ _ hf => hf.trans hmachine

/-- What never fails may come after what is atomic. -/
theorem Atomic.bind_succeeds {execution : Execution β} {next : β → Execution α}
    (h : Atomic execution) (hnext : ∀ value, Succeeds (next value)) : Atomic (execution >>= next) :=
  fun session => yields_bind.mpr <|
    (h session).mono
      (fun value after _ => (hnext value after).mono (fun _ _ _ => trivial) fun _ _ hf => hf.elim)
      fun _ _ hf => hf

theorem atomic_store {operand : Operand} {value : Int32} : Atomic (store operand value) := by
  refine keeps_observe.bind_atomic fun place => ?_
  cases place <;> exact succeeds_update.atomic

theorem atomic_send {value : Int32} : Atomic (send value) :=
  keeps_observe.bind_atomic fun _ => succeeds_update.atomic

theorem atomic_writeDisk {offset value : Int32} : Atomic (writeDisk offset value) :=
  keeps_observe.bind_atomic fun _ => succeeds_update.atomic

theorem atomic_copyFromDisk {source target length : Int32} :
    Atomic (copyFromDisk source target length) :=
  keeps_observe.bind_atomic fun _ => (succeeds_update.bind fun _ => succeeds_note).atomic

/-- Receiving takes at most one byte, and takes none if it fails. -/
theorem receive_mayReceive (session : Session) :
    Yields receive (fun _ after => session.machine.MayReceive after.machine)
      (fun _ after => after.machine = session.machine) session := by
  refine yields_observe_bind.mpr ⟨fun input hinput => ?_, fun _ hf => nomatch hf⟩
  cases input with
  | cons byte rest => exact Or.inr ⟨byte, rest, Except.ok.inj hinput, rfl⟩
  | nil =>
    refine yields_observe_bind.mpr ⟨fun _ _ => ?_, fun _ _ => rfl⟩
    exact Or.inl rfl

end Execution

open Execution

/-- A statement that is not to receive is atomic. -/
theorem Statement.perform_atomic {statement : Statement} (h : statement.instruction ≠ .receive)
    (next depth : Nat) : Atomic (statement.perform next depth) := by
  cases statement using Statement.byInstruction with
  | move condition source target =>
    exact keeps_load.bind_atomic fun _ => atomic_store.bind_succeeds fun _ => succeeds_pure
  | compute operation condition left right target =>
    refine keeps_load.bind_atomic fun _ => keeps_load.bind_atomic fun _ =>
      keeps_observe.bind_atomic fun _ => ?_
    exact atomic_store.bind_succeeds fun _ => succeeds_note.bind fun _ => succeeds_pure
  | receive condition target => exact absurd rfl h
  | send condition source =>
    exact keeps_load.bind_atomic fun _ => atomic_send.bind_succeeds fun _ => succeeds_pure
  | compare condition left right =>
    refine keeps_load.bind_atomic fun _ => keeps_load.bind_atomic fun _ => ?_
    exact (succeeds_update.bind fun _ => succeeds_note.bind fun _ => succeeds_pure).atomic
  | branch condition target =>
    refine keeps_load.bind_atomic fun offset => Keeps.atomic ?_
    by_cases hneg : offset < 0
    · simp only [hneg, ↓reduceIte]
      exact keeps_throw
    · simp only [hneg, ↓reduceIte]
      exact keeps_pure
  | diskRead condition offset target =>
    refine keeps_load.bind_atomic fun _ => keeps_observe.bind_atomic fun _ => ?_
    exact atomic_store.bind_succeeds fun _ => succeeds_pure
  | diskWrite condition source offset =>
    refine keeps_load.bind_atomic fun _ => keeps_load.bind_atomic fun _ => ?_
    exact atomic_writeDisk.bind_succeeds fun _ => succeeds_pure
  | execute condition offset length =>
    exact keeps_load.bind_atomic fun _ => keeps_load.bind_atomic fun _ => keeps_enter.atomic
  | stop condition => exact succeeds_pure.atomic
  | diskLoad condition source target length =>
    refine keeps_load.bind_atomic fun _ => keeps_load.bind_atomic fun _ =>
      keeps_load.bind_atomic fun _ => ?_
    exact atomic_copyFromDisk.bind_succeeds fun _ => succeeds_pure

/-- A statement that is to receive may have done so before it fails. -/
theorem Statement.perform_receive_error {statement : Statement}
    (hreceive : statement.instruction = .receive) {next depth : Nat} {session after : Session}
    {fault : Fault} (h : statement.perform next depth session = .error fault after) :
    session.machine.MayReceive after.machine := by
  have hyields : Yields (statement.perform next depth) (fun _ _ => True)
      (fun _ after => session.machine.MayReceive after.machine) session := by
    obtain ⟨_, condition, operands, arity⟩ := statement
    subst hreceive
    obtain ⟨target, rfl⟩ := List.length_eq_one_iff.mp arity
    refine yields_bind.mpr ((receive_mayReceive session).mono (fun value middle htaken => ?_)
      fun _ _ hsame => Or.inl hsame)
    have hstore : Atomic (store target value >>= fun _ => pure (Transfer.goto next)) :=
      atomic_store.bind_succeeds fun _ => succeeds_pure
    refine (hstore middle).mono (fun _ _ _ => trivial) fun _ final hfinal => ?_
    rw [hfinal]
    exact htaken
  exact hyields.of_error h

namespace Code

variable {code : Code} {offset depth : Nat} {session after : Session} {fault : Fault}

/-- The statement at `offset` takes effect and is to receive a byte. -/
def Receives (code : Code) (offset : Nat) (machine : Machine) : Prop :=
  ∃ statement, code.upcoming offset machine = .ok (.execute statement) ∧
    statement.instruction = .receive

/-- The later machine is the earlier one, unless the statement at `offset` is to receive. -/
def Spares (code : Code) (offset : Nat) (before after : Machine) : Prop :=
  after = before ∨ code.Receives offset before ∧ before.MayReceive after

/-- A statement that cannot be decoded or performed spares the machine. -/
theorem spares_of_error (h : code.executeAt offset depth session = .error fault after) :
    code.Spares offset session.machine after.machine := by
  cases hu : code.upcoming offset session.machine with
  | error other =>
    rw [executeAt_of_error hu] at h
    cases h
    exact Or.inl rfl
  | ok upcoming =>
    cases upcoming with
    | skip instruction condition =>
      rw [executeAt_of_skip hu] at h
      cases h
    | execute statement =>
      rw [executeAt_of_execute hu] at h
      by_cases hreceive : statement.instruction = .receive
      · have htaken := Statement.perform_receive_error hreceive h
        exact Or.inr ⟨⟨statement, hu, hreceive⟩, htaken⟩
      · have hsame := (Statement.perform_atomic hreceive _ depth _).of_error h
        exact Or.inl hsame

end Code

namespace Engine

/-- The statement that `frame` runs next raises `failure`, and the engine rests as `final`. -/
structure Breaks (engine : Engine) (frame : Frame) (failure : Failure) (final : Engine) : Prop where
  working : engine.failure = none
  innermost : engine.frames.head? = some frame
  position : failure.position = frame.offset
  depth : failure.depth + 1 = engine.base + engine.frames.length
  raised : ∃ after, frame.code.executeAt frame.offset failure.depth engine.session =
    .error failure.fault after
  rests : engine.step = final ∧ final.done = true
  spared : frame.code.Spares frame.offset engine.session.machine final.session.machine

/-- A failure comes of the statement of the innermost frame. -/
theorem breaks_of_step {engine : Engine} {failure : Failure} (hworking : engine.failure = none)
    (h : engine.step.failure = some failure) : ∃ frame, engine.Breaks frame failure engine.step := by
  match engine with
  | ⟨_, _, [], none⟩ => cases h
  | ⟨_, _, _, some _⟩ => cases hworking
  | ⟨session, base, frame :: outer, none⟩ =>
    refine ⟨frame, ?_⟩
    revert h
    apply step_cases frame outer (motive := fun next => next.failure = some failure →
      Breaks ⟨session, base, frame :: outer, none⟩ frame failure next)
    case fails =>
      intro fault after hs hx h
      obtain rfl := Option.some.inj h
      have hspared := Code.spares_of_error hx
      exact {
        working := rfl
        innermost := rfl
        position := rfl
        depth := rfl
        raised := ⟨after, hx⟩
        rests := ⟨step_of_error frame outer hs hx, rfl⟩
        spared := hspared }
    case goes => exact fun _ _ _ _ h => nomatch h
    case calls => exact fun _ _ _ _ _ _ h => nomatch h
    case leaves => exact fun _ _ _ h => nomatch h
    case ends => exact fun _ h => nomatch h

/-- A run that fails breaks at one of its steps. -/
theorem breaks_of_steps {engine : Engine} {failure : Failure} (hworking : engine.failure = none)
    {count : Nat} (h : (engine.steps count).failure = some failure) :
    ∃ before < count, ∃ frame, (engine.steps before).Breaks frame failure (engine.steps count) := by
  induction count with
  | zero =>
    rw [show engine.steps 0 = engine from rfl, hworking] at h
    cases h
  | succ count ih =>
    rw [steps_succ] at h ⊢
    cases hf : (engine.steps count).failure with
    | none =>
      obtain ⟨frame, hbreaks⟩ := breaks_of_step hf h
      exact ⟨count, Nat.lt_succ_self count, frame, hbreaks⟩
    | some other =>
      have hdone : (engine.steps count).done = true := by simp [done, hf]
      rw [step_of_done hdone] at h ⊢
      obtain ⟨before, hlt, hbreaks⟩ := ih h
      exact ⟨before, Nat.lt_succ_of_lt hlt, hbreaks⟩

/--
When the run of an image, or of one statement with the streams that it begins, has come to rest with a
failure, the machine is the one that the innermost failing statement found. If that statement was to
receive, a byte of console input may be gone.
-/
theorem failing_statement_spares_machine (session : Session) (image : Bytes) :
    (∀ final failure, (ofImage session image).Settles final → final.failure = some failure →
      ∃ count frame, ((ofImage session image).steps count).Breaks frame failure final) ∧
    ∀ offset final failure, (ofStatement session (.image image) offset).1.Settles final →
      final.failure = some failure →
      (failure.position = offset ∧ failure.depth = 0 ∧
        (∃ after, (Code.image image).executeAt offset 0 session = .error failure.fault after) ∧
        (Code.image image).Spares offset session.machine final.session.machine) ∨
      ∃ count frame, ((ofStatement session (.image image) offset).1.steps count).Breaks frame failure
        final := by
  constructor
  · rintro final failure ⟨count, rfl, -⟩ hfailure
    obtain ⟨before, -, frame, hbreaks⟩ := breaks_of_steps rfl hfailure
    exact ⟨before, frame, hbreaks⟩
  · rintro offset final failure ⟨count, rfl, -⟩ hfailure
    cases hx : (Code.image image).executeAt offset 0 session with
    | error fault after =>
      have hengine : (ofStatement session (.image image) offset).1 = fail after 1 [] fault offset 0 := by
        rw [ofStatement, hx]
      rw [hengine, steps_of_done rfl] at hfailure ⊢
      obtain rfl := Option.some.inj hfailure
      have hspared := Code.spares_of_error hx
      exact Or.inl ⟨rfl, rfl, ⟨after, rfl⟩, hspared⟩
    | ok transfer after =>
      have hworking : (ofStatement session (.image image) offset).1.failure = none := by
        rw [ofStatement, hx]
        cases transfer <;> rfl
      obtain ⟨before, -, frame, hbreaks⟩ := breaks_of_steps hworking hfailure
      exact Or.inr ⟨before, frame, hbreaks⟩

/-- A machine whose RAM holds a statement that receives a byte and has nowhere to put it. -/
def lostByte : Session :=
  .ofMachine {
    registers := .zeros 1
    ram := ⟨.ram, #[0x07, 0, 3, 0, 0, 0, 0]⟩
    disk := .ofBytes "" #[]
    console := .ofInput [65]
    maxDepth := 1 }

theorem failing_statement_spares_machine_lostByte :
    let engine := ofImage lostByte #[0x10, 0, 3, 0, 0, 0, 0, 3, 0, 0, 0, 7]
    engine.Settles (engine.steps 2) ∧ (engine.steps 2).failure = some ⟨.constantWrite, 0, 1⟩ ∧
      (engine.steps 2).session.machine = lostByte.machine.withInput [] ∧
      ∃ count frame, (engine.steps count).Breaks frame ⟨.constantWrite, 0, 1⟩ (engine.steps 2) := by
  intro engine
  have hsettles : engine.Settles (engine.steps 2) := ⟨2, rfl, by decide +kernel⟩
  have hfailure : (engine.steps 2).failure = some ⟨.constantWrite, 0, 1⟩ := by decide +kernel
  have hbreaks := (failing_statement_spares_machine lostByte _).1 _ _ hsettles hfailure
  exact ⟨hsettles, hfailure, by decide +kernel, hbreaks⟩

end Engine
end Microcomputer
