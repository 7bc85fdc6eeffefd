import Mathlib.Data.List.Induction
import Microcomputer.Proofs.Failing
import Microcomputer.Proofs.Storage

/-!
# The statements of a run

A run comes to one statement after another, at any depth, and each of them finds the machine that the one
before it left. Only the last of them can fail. What holds of every run is proved along this history.
-/
namespace Microcomputer

/-- A statement that a run comes to: where it lies, how deep, and the session that it finds. -/
structure Attempt where
  code : Code
  offset : Nat
  depth : Nat
  session : Session

namespace Attempt

def outcome (attempt : Attempt) : EStateM.Result Fault Session Transfer :=
  attempt.code.executeAt attempt.offset attempt.depth attempt.session

def before (attempt : Attempt) : Machine :=
  attempt.session.machine

/-- The machine afterwards, also if the statement has failed. -/
def after (attempt : Attempt) : Machine :=
  match attempt.outcome with
  | .ok _ session | .error _ session => session.machine

/-- The statement, if its condition holds and its operands can be decoded. -/
def statement? (attempt : Attempt) : Option Statement :=
  match attempt.code.upcoming attempt.offset attempt.before with
  | .ok (.execute statement) => some statement
  | _ => none

def failure? (attempt : Attempt) : Option Failure :=
  match attempt.outcome with
  | .ok .. => none
  | .error fault _ => some ⟨fault, attempt.offset, attempt.depth⟩

/-- The statement, if it takes effect and raises no fault. -/
def completed? (attempt : Attempt) : Option Statement :=
  match attempt.failure? with
  | none => attempt.statement?
  | some _ => none

/-- A statement of the instruction completes. -/
def completes (instruction : Instruction) (attempt : Attempt) : Bool :=
  attempt.completed?.any (·.instruction == instruction)

section Outcome

variable {attempt : Attempt} {statement : Statement}

theorem statement?_eq_some : attempt.statement? = some statement ↔
    attempt.code.upcoming attempt.offset attempt.before = .ok (.execute statement) := by
  unfold statement?
  split
  · next found h => simp [h]
  · next h =>
    constructor
    · exact fun hnone => nomatch hnone
    · exact fun hexecute => absurd hexecute (h statement)

theorem completed?_eq_some : attempt.completed? = some statement ↔
    attempt.failure? = none ∧ attempt.statement? = some statement := by
  unfold completed?
  cases attempt.failure? <;> simp

theorem completes_iff {instruction : Instruction} : attempt.completes instruction = true ↔
    ∃ statement, attempt.completed? = some statement ∧ statement.instruction = instruction := by
  simp [completes, Option.any_eq_true]

/-- What a statement that takes effect comes to is what it performs. -/
theorem outcome_of_statement? (h : attempt.statement? = some statement) :
    attempt.outcome = statement.perform (attempt.offset + statement.length) attempt.depth
      (attempt.session.note (.executed attempt.depth attempt.offset statement)) :=
  Code.executeAt_of_execute (statement?_eq_some.mp h)

/-- What takes no effect leaves the machine as it is. -/
theorem after_of_statement?_eq_none (h : attempt.statement? = none) : attempt.after = attempt.before := by
  unfold after outcome
  cases hu : attempt.code.upcoming attempt.offset attempt.session.machine with
  | error fault =>
    rw [Code.executeAt_of_error hu]
    rfl
  | ok upcoming =>
    cases upcoming with
    | skip instruction condition =>
      rw [Code.executeAt_of_skip hu]
      rfl
    | execute statement =>
      rw [statement?_eq_some.mpr hu] at h
      cases h

theorem after_of_ok {transfer : Transfer} {session : Session} (h : attempt.outcome = .ok transfer session) :
    attempt.after = session.machine ∧ attempt.failure? = none := by
  simp only [after, failure?, h, and_self]

theorem after_of_error {fault : Fault} {session : Session} (h : attempt.outcome = .error fault session) :
    attempt.after = session.machine ∧
      attempt.failure? = some ⟨fault, attempt.offset, attempt.depth⟩ := by
  simp only [after, failure?, h, and_self]

theorem completed?_of_ok {transfer : Transfer} {session : Session}
    (h : attempt.statement? = some statement) (ho : attempt.outcome = .ok transfer session) :
    attempt.completed? = some statement :=
  completed?_eq_some.mpr ⟨(after_of_ok ho).2, h⟩

theorem completed?_of_error {fault : Fault} {session : Session}
    (ho : attempt.outcome = .error fault session) : attempt.completed? = none := by
  simp only [completed?, (after_of_error ho).2]

theorem completes_eq_false {instruction : Instruction}
    (h : ∀ statement, attempt.completed? = some statement → statement.instruction ≠ instruction) :
    attempt.completes instruction = false := by
  rw [Bool.eq_false_iff, ne_eq, completes_iff]
  rintro ⟨statement, hcompleted, hinstruction⟩
  exact h statement hcompleted hinstruction

theorem completes_of_completed?_eq_none (h : attempt.completed? = none) (instruction : Instruction) :
    attempt.completes instruction = false := by
  rw [completes, h, Option.any_none]

theorem completes_of_ok {transfer : Transfer} {session : Session} (h : attempt.statement? = some statement)
    (ho : attempt.outcome = .ok transfer session) : attempt.completes statement.instruction = true :=
  completes_iff.mpr ⟨statement, completed?_of_ok h ho, rfl⟩

theorem completes_of_error {fault : Fault} {session : Session} (ho : attempt.outcome = .error fault session)
    (instruction : Instruction) : attempt.completes instruction = false :=
  completes_of_completed?_eq_none (completed?_of_error ho) instruction

/-- Of two instructions a statement can complete one only. -/
theorem completes_of_ne {instruction other : Instruction} (h : attempt.completes instruction = true)
    (hne : instruction ≠ other) : attempt.completes other = false := by
  obtain ⟨statement, hcompleted, rfl⟩ := completes_iff.mp h
  refine completes_eq_false fun found hfound => ?_
  obtain rfl := Option.some.inj (hcompleted.symm.trans hfound)
  exact hne

open Execution in
/-- A view that the statement keeps is the same after the attempt. -/
theorem view_eq_of_keeps {γ : Type} {view : Machine → γ} (hstatement : attempt.statement? = some statement)
    (h : ∀ next depth, Keeps view (statement.perform next depth)) :
    view attempt.after = view attempt.before := by
  have hkeeps := h (attempt.offset + statement.length) attempt.depth
    (attempt.session.note (.executed attempt.depth attempt.offset statement))
  cases ho : attempt.outcome with
  | ok transfer session =>
    rw [(after_of_ok ho).1]
    exact hkeeps.of_ok ((outcome_of_statement? hstatement).symm.trans ho)
  | error fault session =>
    rw [(after_of_error ho).1]
    exact hkeeps.of_error ((outcome_of_statement? hstatement).symm.trans ho)

/-- A statement that completes has been performed, and leaves the machine that it came to. -/
theorem perform_of_completed? (h : attempt.completed? = some statement) : ∃ transfer session,
    statement.perform (attempt.offset + statement.length) attempt.depth
      (attempt.session.note (.executed attempt.depth attempt.offset statement)) = .ok transfer session ∧
    attempt.after = session.machine := by
  obtain ⟨hfailure, hstatement⟩ := completed?_eq_some.mp h
  have hout := outcome_of_statement? hstatement
  cases ho : attempt.outcome with
  | error fault session =>
    rw [(after_of_error ho).2] at hfailure
    cases hfailure
  | ok transfer session => exact ⟨transfer, session, hout.symm.trans ho, (after_of_ok ho).1⟩

/-- What does not complete leaves the machine as it is, but for a byte that it may have received. -/
theorem mayReceive_of_completed?_eq_none (h : attempt.completed? = none) :
    attempt.before.MayReceive attempt.after := by
  cases ho : attempt.outcome with
  | error fault session =>
    rw [(after_of_error ho).1]
    rcases Code.spares_of_error ho with hsame | ⟨-, htaken⟩
    · exact Or.inl hsame
    · exact htaken
  | ok transfer session =>
    cases hstatement : attempt.statement? with
    | none => exact Or.inl (after_of_statement?_eq_none hstatement)
    | some statement =>
      rw [completed?_of_ok hstatement ho] at h
      cases h

theorem shape_eq (attempt : Attempt) : attempt.after.shape = attempt.before.shape := by
  have hkeeps := attempt.code.executeAt_keeps_shape attempt.offset attempt.depth attempt.session
  cases ho : attempt.outcome with
  | ok transfer session =>
    rw [(after_of_ok ho).1]
    exact hkeeps.of_ok ho
  | error fault session =>
    rw [(after_of_error ho).1]
    exact hkeeps.of_error ho

end Outcome

/-- The statement has stored `value` into the operand, which now reads as that value. -/
structure StoresInto (attempt : Attempt) (target : Operand) (value : Int32) : Prop where
  written : target.write attempt.before.registers attempt.before.ram value =
    .ok (attempt.after.registers, attempt.after.ram)
  readBack : target.read attempt.after.registers attempt.after.ram = .ok value

theorem storesInto_of_write {attempt : Attempt} {target : Operand} {value : Int32} {machine : Machine}
    {registers : Registers} {ram : Memory}
    (hwrite : target.write attempt.before.registers attempt.before.ram value = .ok (registers, ram))
    (hafter : attempt.after = { machine with registers := registers, ram := ram }) :
    attempt.StoresInto target value where
  written := by rw [hafter, hwrite]
  readBack := by
    rw [hafter]
    exact Operand.read_of_write hwrite

end Attempt

/-- The attempts lead from one machine to another, each from where the last one came to. -/
inductive History (start : Machine) : List Attempt → Machine → Option Failure → Prop
  | nil : History start [] start none
  | concat {attempts : List Attempt} {attempt : Attempt}
      (history : History start attempts attempt.before none) :
      History start (attempts ++ [attempt]) attempt.after attempt.failure?

namespace History

variable {start middle final : Machine} {failure : Option Failure} {front back : List Attempt}
  {attempt : Attempt}

theorem append (h : History start front middle none) (h' : History middle back final failure) :
    History start (front ++ back) final failure := by
  induction h' with
  | nil =>
    rw [List.append_nil]
    exact h
  | concat _ ih =>
    rw [← List.append_assoc]
    exact ih.concat

theorem of_concat (h : History start (front ++ [attempt]) final failure) :
    History start front attempt.before none ∧ final = attempt.after ∧ failure = attempt.failure? := by
  generalize hattempts : front ++ [attempt] = attempts at h
  cases h with
  | nil => simp at hattempts
  | concat history =>
    obtain ⟨rfl, hlast⟩ := List.append_inj' hattempts rfl
    obtain rfl := List.head_eq_of_cons_eq hlast
    exact ⟨history, rfl, rfl⟩

/-- Up to any of its attempts a history is one without a failure. -/
theorem before_of_append_cons (h : History start (front ++ attempt :: back) final failure) :
    History start front attempt.before none := by
  induction back using List.reverseRecOn generalizing final failure with
  | nil => exact h.of_concat.1
  | append_singleton back last ih =>
    rw [← List.cons_append, ← List.append_assoc] at h
    exact ih h.of_concat.1

/-- After any of its attempts a history without a failure goes on from there. -/
theorem after_of_append_cons (h : History start (front ++ attempt :: back) final none) :
    History attempt.after back final none := by
  induction back using List.reverseRecOn generalizing final with
  | nil =>
    obtain ⟨-, rfl, -⟩ := h.of_concat
    exact .nil
  | append_singleton back last ih =>
    rw [← List.cons_append, ← List.append_assoc] at h
    obtain ⟨hbefore, rfl, hfailure⟩ := h.of_concat
    rw [hfailure]
    exact (ih hbefore).concat

/-- A view that every attempt keeps is the same in the end. -/
theorem view_eq {γ : Type} (view : Machine → γ) {attempts : List Attempt}
    (h : History start attempts final failure)
    (hkeeps : ∀ attempt ∈ attempts, view attempt.after = view attempt.before) : view final = view start := by
  induction h with
  | nil => rfl
  | @concat attempts attempt _ ih =>
    rw [List.forall_mem_append] at hkeeps
    exact (hkeeps.2 attempt (List.mem_singleton_self _)).trans (ih hkeeps.1)

end History

namespace Engine

/-- The statement that the next step comes to, if it does not just end a stream. -/
def attempt? : Engine → Option Attempt
  | ⟨session, base, frame :: outer, none⟩ =>
    if frame.offset < frame.code.size then
      some ⟨frame.code, frame.offset, base + outer.length, session⟩
    else none
  | _ => none

/-- The statements that the engine comes to in its next `count` steps. -/
def attempts (engine : Engine) (count : Nat) : List Attempt :=
  (List.range count).filterMap fun k => (engine.steps k).attempt?

theorem attempts_succ (engine : Engine) (count : Nat) :
    engine.attempts (count + 1) = engine.attempts count ++ (engine.steps count).attempt?.toList := by
  rw [attempts, List.range_succ, List.filterMap_append, attempts]
  cases h : (engine.steps count).attempt? <;> simp [h]

theorem attempt?_of_done {engine : Engine} (h : engine.done = true) : engine.attempt? = none := by
  match engine with
  | ⟨_, _, [], none⟩ => rfl
  | ⟨_, _, [], some _⟩ => rfl
  | ⟨_, _, _ :: _, some _⟩ => rfl
  | ⟨_, _, _ :: _, none⟩ => simp [done] at h

theorem attempts_of_done {engine : Engine} (h : engine.done = true) (count : Nat) :
    engine.attempts count = [] := by
  induction count with
  | zero => rfl
  | succ count ih => rw [attempts_succ, ih, steps_of_done h, attempt?_of_done h, Option.toList_none,
      List.append_nil]

/-- An engine that comes to rest comes to no more statements. -/
theorem mem_attempts_of_done {engine : Engine} {attempt : Attempt} {rest count : Nat}
    (hdone : (engine.steps rest).done = true) (h : attempt ∈ engine.attempts count) :
    attempt ∈ engine.attempts rest := by
  obtain ⟨k, -, hk⟩ := List.mem_filterMap.mp h
  refine List.mem_filterMap.mpr ⟨k, List.mem_range.mpr ?_, hk⟩
  by_contra hlater
  obtain ⟨more, rfl⟩ := Nat.exists_eq_add_of_le (Nat.not_lt.mp hlater)
  rw [steps_add, steps_of_done hdone, attempt?_of_done hdone] at hk
  cases hk

/-- A step that comes to a statement ends with the machine and the failure that the statement leaves. -/
theorem step_of_attempt? {engine : Engine} {attempt : Attempt} (h : engine.attempt? = some attempt) :
    engine.failure = none ∧ engine.session.machine = attempt.before ∧
      engine.step.session.machine = attempt.after ∧ engine.step.failure = attempt.failure? := by
  match engine with
  | ⟨_, _, [], none⟩ => cases h
  | ⟨_, _, [], some _⟩ => cases h
  | ⟨_, _, _ :: _, some _⟩ => cases h
  | ⟨session, base, frame :: outer, none⟩ =>
    by_cases hs : frame.offset < frame.code.size
    · rw [attempt?, if_pos hs] at h
      generalize hattempt : Attempt.mk frame.code frame.offset (base + outer.length) session = found at h
      obtain rfl := Option.some.inj h
      have hout : found.outcome = frame.code.executeAt frame.offset (base + outer.length) session :=
        hattempt ▸ rfl
      have hok {transfer : Transfer} {after : Session}
          (hx : frame.code.executeAt frame.offset (base + outer.length) session = .ok transfer after) :
          after.machine = found.after ∧ none = found.failure? := by
        obtain ⟨hafter, hfailure⟩ := Attempt.after_of_ok (hout.trans hx)
        exact ⟨hafter.symm, hfailure.symm⟩
      refine ⟨rfl, hattempt ▸ rfl, ?_⟩
      apply step_cases frame outer (motive := fun next =>
        next.session.machine = found.after ∧ next.failure = found.failure?)
      case fails =>
        intro fault after _ hx
        obtain ⟨hafter, hfailure⟩ := Attempt.after_of_error (hout.trans hx)
        subst hattempt
        exact ⟨hafter.symm, hfailure.symm⟩
      case goes => exact fun _ _ _ hx => hok hx
      case calls => exact fun _ _ _ _ _ hx => hok hx
      case leaves =>
        intro after _ hx
        have hleft := hok hx
        exact hleft
      case ends => exact fun hpast => absurd hs (Nat.not_lt.mpr hpast)
    · rw [attempt?, if_neg hs] at h
      cases h

/-- A step that comes to no statement leaves the machine as it is. -/
theorem step_of_attempt?_eq_none {engine : Engine} (h : engine.attempt? = none) :
    engine.step.session.machine = engine.session.machine ∧ engine.step.failure = engine.failure := by
  match engine with
  | ⟨_, _, [], none⟩ => exact ⟨rfl, rfl⟩
  | ⟨_, _, [], some _⟩ => exact ⟨rfl, rfl⟩
  | ⟨_, _, _ :: _, some _⟩ => exact ⟨rfl, rfl⟩
  | ⟨session, base, frame :: outer, none⟩ =>
    by_cases hs : frame.offset < frame.code.size
    · rw [attempt?, if_pos hs] at h
      cases h
    · rw [step_of_exhausted frame outer (Nat.not_lt.mp hs)]
      exact ⟨rfl, rfl⟩

theorem history_steps {engine : Engine} (h : engine.failure = none) (count : Nat) :
    History engine.session.machine (engine.attempts count) (engine.steps count).session.machine
      (engine.steps count).failure := by
  induction count with
  | zero =>
    rw [show engine.steps 0 = engine from rfl, h]
    exact .nil
  | succ count ih =>
    rw [attempts_succ, steps_succ]
    cases ha : (engine.steps count).attempt? with
    | none =>
      obtain ⟨hmachine, hfailure⟩ := step_of_attempt?_eq_none ha
      rw [hmachine, hfailure, Option.toList_none, List.append_nil]
      exact ih
    | some attempt =>
      obtain ⟨hworking, hbefore, hafter, hfailure⟩ := step_of_attempt? ha
      rw [hworking, hbefore] at ih
      rw [hafter, hfailure, Option.toList_some]
      exact ih.concat

/-- A statement on its own leaves the machine and the failure of its attempt. -/
theorem ofStatement_after (session : Session) (code : Code) (offset : Nat) :
    (ofStatement session code offset).1.session.machine = Attempt.after ⟨code, offset, 0, session⟩ ∧
      (ofStatement session code offset).1.failure = Attempt.failure? ⟨code, offset, 0, session⟩ := by
  unfold ofStatement Attempt.after Attempt.failure? Attempt.outcome
  cases code.executeAt offset 0 session with
  | error fault after => exact ⟨rfl, rfl⟩
  | ok transfer after => cases transfer <;> exact ⟨rfl, rfl⟩

end Engine

/-- What a machine is asked for: to run an image, or to execute the statement at an offset of one. -/
inductive Request
  | run (image : Bytes)
  | execute (image : Bytes) (offset : Nat)

namespace Request

/-- The engine that carries out the request, from the first step that may not be its last. -/
def engine (session : Session) : Request → Engine
  | run image => .ofImage session image
  | execute image offset => (Engine.ofStatement session (.image image) offset).1

/-- The engine after `count` steps. -/
def reached (request : Request) (session : Session) (count : Nat) : Engine :=
  (request.engine session).steps count

/-- The statements that the engine has come to after `count` steps. -/
def attempts (session : Session) (count : Nat) : Request → List Attempt
  | run image => (Engine.ofImage session image).attempts count
  | execute image offset => ⟨.image image, offset, 0, session⟩ ::
      (Engine.ofStatement session (.image image) offset).1.attempts count

/-- The statements of a request lead to the machine and the failure that the engine has. -/
theorem history (request : Request) (session : Session) (count : Nat) :
    History session.machine (request.attempts session count)
      (request.reached session count).session.machine (request.reached session count).failure := by
  cases request with
  | run image =>
    have hworking : (Engine.ofImage session image).failure = none := rfl
    exact Engine.history_steps hworking count
  | execute image offset =>
    have hfirst : History session.machine ([] ++ [⟨.image image, offset, 0, session⟩])
        (Engine.ofStatement session (.image image) offset).1.session.machine
        (Engine.ofStatement session (.image image) offset).1.failure := by
      obtain ⟨hafter, hfailure⟩ := Engine.ofStatement_after session (.image image) offset
      rw [hafter, hfailure]
      exact .concat .nil
    unfold attempts reached engine
    cases hf : (Engine.ofStatement session (.image image) offset).1.failure with
    | none =>
      rw [hf] at hfirst
      exact hfirst.append (Engine.history_steps hf count)
    | some failure =>
      have hdone : (Engine.ofStatement session (.image image) offset).1.done = true := by
        simp [Engine.done, hf]
      simp only [Engine.attempts_of_done hdone, Engine.steps_of_done hdone]
      exact hfirst

/-- Every statement of a run finds a machine of the shape with which the run began. -/
theorem before_shape {request : Request} {session : Session} {count : Nat} {attempt : Attempt}
    (h : attempt ∈ request.attempts session count) : attempt.before.shape = session.machine.shape := by
  obtain ⟨front, back, hattempts⟩ := List.append_of_mem h
  have hhistory := request.history session count
  rw [hattempts] at hhistory
  exact hhistory.before_of_append_cons.view_eq Machine.shape fun earlier _ => earlier.shape_eq

end Request
end Microcomputer
