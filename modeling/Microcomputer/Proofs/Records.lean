import Microcomputer.Proofs.History

/-!
# What a run reports

A run adds to the log and takes nothing back. Of each statement that it comes to it reports one thing, that it
is executed or that it is passed over, or nothing if it cannot be decoded. A failure is reported once, by the
statement that fails, however many streams are open around it.
-/
namespace Microcomputer

open Text

namespace Event

/-- The event is that a statement is executed or passed over. -/
def isStatement : Event → Bool
  | executed .. | skipped .. => true
  | _ => false

/-- The event is one of a statement, or one that is logged as an error. -/
def tells (event : Event) : Bool :=
  event.isStatement || event.level == .error

end Event

/-- The later log is the earlier one with further events; `told` are those of statements and failures. -/
def Session.Tells (before : Session) (told : List Event) (after : Session) : Prop :=
  ∃ added, after.events.toList = before.events.toList ++ added ∧ added.filter (·.tells) = told

namespace Session

variable {before middle after : Session} {told more : List Event}

theorem tells_nil_of_events_eq (h : after.events = before.events) : before.Tells [] after :=
  ⟨[], by rw [h, List.append_nil], rfl⟩

theorem tells_note (session : Session) (event : Event) :
    session.Tells ([event].filter (·.tells)) (session.note event) :=
  ⟨[event], Array.toList_push, rfl⟩

theorem Tells.trans (h : before.Tells told middle) (h' : middle.Tells more after) :
    before.Tells (told ++ more) after := by
  obtain ⟨first, hfirst, rfl⟩ := h
  obtain ⟨second, hsecond, rfl⟩ := h'
  exact ⟨first ++ second, by rw [hsecond, hfirst, List.append_assoc], List.filter_append ..⟩

/-- An event that is neither of a statement nor of a failure tells nothing. -/
theorem Tells.note (h : before.Tells told after) {event : Event} (hevent : event.tells = false) :
    before.Tells told (after.note event) := by
  have hlast := h.trans (after.tells_note event)
  rwa [List.filter_cons_of_neg (by simp [hevent]), List.filter_nil, List.append_nil] at hlast

end Session

namespace Execution

variable {α β : Type}

/-- The execution reports neither statements nor failures. -/
def Quiet (execution : Execution α) : Prop :=
  ∀ session, Yields execution (fun _ after => session.Tells [] after)
    (fun _ after => session.Tells [] after) session

theorem quiet_of_events_eq {execution : Execution α} (h : ∀ session, Yields execution
    (fun _ after => after.events = session.events) (fun _ after => after.events = session.events) session) :
    Quiet execution :=
  fun session => (h session).mono (fun _ _ => Session.tells_nil_of_events_eq)
    fun _ _ => Session.tells_nil_of_events_eq

theorem quiet_pure {value : α} : Quiet (pure value : Execution α) :=
  quiet_of_events_eq fun _ => rfl

theorem quiet_throw {fault : Fault} : Quiet (throw fault : Execution α) :=
  quiet_of_events_eq fun _ => rfl

theorem quiet_observe {look : Machine → Except Fault α} : Quiet (observe look) :=
  quiet_of_events_eq fun _ => yields_observe.mpr ⟨fun _ _ => rfl, fun _ _ => rfl⟩

theorem quiet_update {change : Machine → Machine} : Quiet (update change) :=
  quiet_of_events_eq fun _ => rfl

theorem quiet_note {event : Event} (h : event.tells = false) : Quiet (note event) :=
  fun _ => (Session.tells_nil_of_events_eq rfl).note h

theorem Quiet.bind {execution : Execution β} {next : β → Execution α} (h : Quiet execution)
    (hnext : ∀ value, Quiet (next value)) : Quiet (execution >>= next) := by
  intro session
  refine yields_bind.mpr ((h session).mono (fun value after hv => ?_) fun _ _ hv => hv)
  exact (hnext value after).mono (fun _ _ hw => hv.trans hw) fun _ _ hw => hv.trans hw

theorem quiet_load {operand : Operand} : Quiet (load operand) :=
  quiet_observe

theorem quiet_store {operand : Operand} {value : Int32} : Quiet (store operand value) := by
  refine quiet_observe.bind fun place => ?_
  cases place <;> exact quiet_update

theorem quiet_receive : Quiet receive := by
  refine quiet_observe.bind fun input => ?_
  cases input with
  | cons byte rest => exact quiet_update.bind fun _ => quiet_pure
  | nil => exact quiet_observe.bind fun _ => (quiet_note rfl).bind fun _ => quiet_pure

theorem quiet_enter {offset length : Int32} {depth resume : Nat} :
    Quiet (enter offset length depth resume) := by
  unfold enter
  by_cases hl : length = 0
  · rw [if_pos hl]
    exact quiet_pure
  · rw [if_neg hl]
    exact quiet_observe.bind fun _ => (quiet_note rfl).bind fun _ => quiet_pure

end Execution

open Execution

/-- Performing a statement reports neither statements nor failures. -/
theorem Statement.perform_quiet (statement : Statement) (next depth : Nat) :
    Quiet (statement.perform next depth) := by
  cases statement using Statement.byInstruction with
  | move condition source target =>
    exact quiet_load.bind fun _ => quiet_store.bind fun _ => quiet_pure
  | compute operation condition left right target =>
    refine quiet_load.bind fun a => quiet_load.bind fun b => quiet_observe.bind fun result => ?_
    exact quiet_store.bind fun _ => (quiet_note rfl).bind fun _ => quiet_pure
  | receive condition target =>
    exact quiet_receive.bind fun _ => quiet_store.bind fun _ => quiet_pure
  | send condition source =>
    exact quiet_load.bind fun _ => (quiet_observe.bind fun _ => quiet_update).bind fun _ => quiet_pure
  | compare condition left right =>
    refine quiet_load.bind fun a => quiet_load.bind fun b => quiet_update.bind fun _ => ?_
    exact (quiet_note rfl).bind fun _ => quiet_pure
  | branch condition target =>
    refine quiet_load.bind fun offset => ?_
    by_cases h : offset < 0
    · simp only [h, ↓reduceIte]
      exact quiet_throw
    · simp only [h, ↓reduceIte]
      exact quiet_pure
  | diskRead condition offset target =>
    exact quiet_load.bind fun _ => quiet_observe.bind fun _ => quiet_store.bind fun _ => quiet_pure
  | diskWrite condition source offset =>
    refine quiet_load.bind fun value => quiet_load.bind fun address => ?_
    exact (quiet_observe.bind fun _ => quiet_update).bind fun _ => quiet_pure
  | execute condition offset length => exact quiet_load.bind fun _ => quiet_load.bind fun _ => quiet_enter
  | stop condition => exact quiet_pure
  | diskLoad condition source target length =>
    refine quiet_load.bind fun s => quiet_load.bind fun d => quiet_load.bind fun n => ?_
    refine (quiet_observe.bind fun span => ?_).bind fun _ => quiet_pure
    exact quiet_update.bind fun _ => quiet_note rfl

namespace History

variable {start final : Machine} {attempts : List Attempt}

theorem failure?_eq_none {failure : Option Failure} (h : History start attempts final failure)
    (hfailure : failure = none) : ∀ attempt ∈ attempts, attempt.failure? = none := by
  induction h with
  | nil => exact fun attempt hmem => absurd hmem List.not_mem_nil
  | concat _ ih => exact List.forall_mem_append.mpr ⟨ih rfl, List.forall_mem_singleton.mpr hfailure⟩

/-- The failure that a history ends in is that of its last statement, and no other has failed. -/
theorem exists_last {failure : Failure} (h : History start attempts final (some failure)) :
    ∃ earlier last, attempts = earlier ++ [last] ∧ last.failure? = some failure ∧
      ∀ attempt ∈ earlier, attempt.failure? = none := by
  generalize hending : some failure = ending at h ⊢
  cases h with
  | nil => cases hending
  | concat history => exact ⟨_, _, rfl, rfl, history.failure?_eq_none rfl⟩

end History

namespace Attempt

/-- What is reported of the statement, if it can be decoded. -/
def event? (attempt : Attempt) : Option Event :=
  match attempt.code.upcoming attempt.offset attempt.before with
  | .ok (.execute statement) => some (.executed attempt.depth attempt.offset statement)
  | .ok (.skip instruction condition) =>
    some (.skipped attempt.depth attempt.offset instruction condition attempt.before.registers.compare)
  | .error _ => none

/-- The record of the statement: the depth, the offset and the statement, or why it is passed over. -/
def record? (attempt : Attempt) : Option Record :=
  let depth := decimal attempt.depth
  let offset := hex attempt.offset
  match attempt.code.upcoming attempt.offset attempt.before with
  | .ok (.execute statement) => some ⟨.debug, s!"[{depth}] 0x{offset}: {statement.text}"⟩
  | .ok (.skip instruction condition) =>
    let compare := decimal attempt.before.registers.compare.toInt
    some ⟨.trace, s!"[{depth}] 0x{offset}: skip {instruction.name} ({condition.name}, compare {compare})"⟩
  | .error _ => none

theorem record?_eq (attempt : Attempt) : attempt.event?.map Event.record = attempt.record? := by
  unfold event? record?
  split <;> rfl

theorem isStatement_of_event? {attempt : Attempt} {event : Event} (h : attempt.event? = some event) :
    event.isStatement = true ∧ event.level ≠ .error := by
  unfold event? at h
  split at h <;> cases h <;> exact ⟨rfl, Level.noConfusion⟩

/-- Before it fails a statement reports no more than its own event. -/
theorem tells_outcome (attempt : Attempt) :
    Yields (attempt.code.executeAt attempt.offset attempt.depth)
      (fun _ after => attempt.session.Tells attempt.event?.toList after)
      (fun _ after => attempt.session.Tells attempt.event?.toList after) attempt.session := by
  unfold Yields event? before
  cases hu : attempt.code.upcoming attempt.offset attempt.session.machine with
  | error fault =>
    rw [Code.executeAt_of_error hu]
    exact Session.tells_nil_of_events_eq rfl
  | ok upcoming =>
    cases upcoming with
    | skip instruction condition =>
      rw [Code.executeAt_of_skip hu]
      exact Session.tells_note _ _
    | execute statement =>
      rw [Code.executeAt_of_execute hu]
      have hfirst := attempt.session.tells_note (.executed attempt.depth attempt.offset statement)
      have hquiet := statement.perform_quiet (attempt.offset + statement.length) attempt.depth
        (attempt.session.note (.executed attempt.depth attempt.offset statement))
      exact hquiet.mono (fun _ _ hrest => hfirst.trans hrest) fun _ _ hrest => hfirst.trans hrest

theorem tells_of_ok (attempt : Attempt) {transfer : Transfer} {after : Session}
    (h : attempt.outcome = .ok transfer after) :
    attempt.session.Tells (attempt.event?.toList ++ attempt.failure?.toList.map .failed) after := by
  rw [(after_of_ok h).2, Option.toList_none, List.map_nil, List.append_nil]
  exact attempt.tells_outcome.of_ok h

theorem tells_of_error (attempt : Attempt) {fault : Fault} {after : Session}
    (h : attempt.outcome = .error fault after) :
    attempt.session.Tells (attempt.event?.toList ++ attempt.failure?.toList.map .failed)
      (after.note (.failed ⟨fault, attempt.offset, attempt.depth⟩)) := by
  rw [(after_of_error h).2, Option.toList_some, List.map_singleton]
  exact (attempt.tells_outcome.of_error h).trans (after.tells_note _)

end Attempt

namespace Engine

/-- A step reports the statement that it comes to, and then the failure that it ends in. -/
theorem tells_step_of_attempt? {engine : Engine} {attempt : Attempt} (h : engine.attempt? = some attempt) :
    engine.session.Tells (attempt.event?.toList ++ attempt.failure?.toList.map .failed)
      engine.step.session := by
  match engine with
  | ⟨_, _, [], none⟩ => cases h
  | ⟨_, _, [], some _⟩ => cases h
  | ⟨_, _, _ :: _, some _⟩ => cases h
  | ⟨session, base, frame :: outer, none⟩ =>
    by_cases hs : frame.offset < frame.code.size
    · rw [attempt?, if_pos hs] at h
      obtain rfl := Option.some.inj h
      have hok {transfer : Transfer} {after : Session}
          (hx : frame.code.executeAt frame.offset (base + outer.length) session = .ok transfer after) :=
        Attempt.tells_of_ok ⟨frame.code, frame.offset, base + outer.length, session⟩ hx
      apply step_cases frame outer (motive := fun next => session.Tells _ next.session)
      case fails =>
        exact fun fault after _ hx =>
          Attempt.tells_of_error ⟨frame.code, frame.offset, base + outer.length, session⟩ hx
      case goes => exact fun _ _ _ hx => hok hx
      case calls => exact fun _ _ _ _ _ hx => hok hx
      case leaves => exact fun _ _ hx => (hok hx).note rfl
      case ends => exact fun hpast => absurd hs (Nat.not_lt.mpr hpast)
    · rw [attempt?, if_neg hs] at h
      cases h

theorem tells_step_of_attempt?_eq_none {engine : Engine} (h : engine.attempt? = none) :
    engine.session.Tells [] engine.step.session := by
  match engine with
  | ⟨_, _, [], none⟩ | ⟨_, _, [], some _⟩ | ⟨_, _, _ :: _, some _⟩ =>
    exact Session.tells_nil_of_events_eq rfl
  | ⟨session, base, frame :: outer, none⟩ =>
    by_cases hs : frame.offset < frame.code.size
    · rw [attempt?, if_pos hs] at h
      cases h
    · rw [step_of_exhausted frame outer (Nat.not_lt.mp hs)]
      exact (Session.tells_nil_of_events_eq rfl).note rfl

/-- What a run of these statements reports that ends in this failure, if in any. -/
def told (attempts : List Attempt) (failure : Option Failure) : List Event :=
  attempts.filterMap Attempt.event? ++ failure.toList.map .failed

/-- A run reports its statements in order, and at last its failure. -/
theorem tells_steps {engine : Engine} (h : engine.failure = none) (count : Nat) :
    engine.session.Tells (told (engine.attempts count) (engine.steps count).failure)
      (engine.steps count).session := by
  induction count with
  | zero =>
    rw [show engine.steps 0 = engine from rfl, h]
    exact Session.tells_nil_of_events_eq rfl
  | succ count ih =>
    rw [attempts_succ, steps_succ]
    cases ha : (engine.steps count).attempt? with
    | none =>
      rw [(step_of_attempt?_eq_none ha).2, Option.toList_none, List.append_nil, ← List.append_nil (told _ _)]
      exact ih.trans (tells_step_of_attempt?_eq_none ha)
    | some attempt =>
      obtain ⟨hworking, -, -, hfailure⟩ := step_of_attempt? ha
      have hlast := ih.trans (tells_step_of_attempt? ha)
      rw [hworking] at hlast
      rw [hfailure]
      cases he : attempt.event? <;> simpa [told, he] using hlast

/-- A statement on its own reports itself, and its failure if it fails. -/
theorem tells_ofStatement (session : Session) (code : Code) (offset : Nat) :
    session.Tells (told [⟨code, offset, 0, session⟩] (ofStatement session code offset).1.failure)
      (ofStatement session code offset).1.session := by
  have htold (attempt : Attempt) : told [attempt] attempt.failure? =
      attempt.event?.toList ++ attempt.failure?.toList.map .failed := by
    cases he : attempt.event? <;> simp [told, he]
  rw [(ofStatement_after session code offset).2, htold]
  unfold ofStatement
  cases hx : code.executeAt offset 0 session with
  | error fault after => exact Attempt.tells_of_error ⟨code, offset, 0, session⟩ hx
  | ok transfer after =>
    have hok := Attempt.tells_of_ok ⟨code, offset, 0, session⟩ hx
    cases transfer <;> exact hok

end Engine

open Engine

/-- A request reports its statements in order, and at last its failure. -/
theorem Request.tells_reached (request : Request) (session : Session) (count : Nat) :
    session.Tells (told (request.attempts session count) (request.reached session count).failure)
      (request.reached session count).session := by
  cases request with
  | run image =>
    have hworking : (Engine.ofImage session image).failure = none := rfl
    exact tells_steps hworking count
  | execute image offset =>
    have hfirst := tells_ofStatement session (.image image) offset
    unfold attempts reached engine
    cases hf : (ofStatement session (.image image) offset).1.failure with
    | none =>
      rw [hf] at hfirst
      have hall := hfirst.trans (tells_steps hf count)
      rw [told, Option.toList_none, List.map_nil, List.append_nil, told, ← List.append_assoc,
        ← List.filterMap_append] at hall
      exact hall
    | some failure =>
      have hdone : (ofStatement session (.image image) offset).1.done = true := by simp [done, hf]
      simp only [attempts_of_done hdone, steps_of_done hdone]
      exact hfirst

theorem Engine.outcome_eq (engine : Engine) :
    engine.outcome = (engine.failure.elim (.ok ()) .error, engine.session) := by
  unfold outcome
  cases engine.failure <;> rfl

section Log

/-- The records of these failures. -/
def errorRecords (failure : Option Failure) : List Record :=
  failure.toList.map fun failure => ⟨.error, failure.message⟩

/-- What was added to the log of a run of these statements that ended in this failure, if in any. -/
structure Accounts (attempts : List Attempt) (failure : Option Failure) (added : List Event) : Prop where
  /-- There is an error exactly if there is a failure, and it is the message of the failure. -/
  errors : (added.map Event.record).filter (·.level == .error) = errorRecords failure
  statements : (added.filter (·.isStatement)).map Event.record = attempts.filterMap Attempt.record?
  /-- All statements are on record before the failure. -/
  order : (added.filter (·.tells)).map Event.record =
    attempts.filterMap Attempt.record? ++ errorRecords failure

theorem accounts_of_told {attempts : List Attempt} {failure : Option Failure} {added : List Event}
    (h : added.filter (·.tells) = told attempts failure) : Accounts attempts failure added := by
  have hrecords : (attempts.filterMap Attempt.event?).map Event.record =
      attempts.filterMap Attempt.record? := by
    simp only [List.map_filterMap, Attempt.record?_eq]
  have hstatement : ∀ event ∈ attempts.filterMap Attempt.event?,
      event.isStatement = true ∧ event.level ≠ .error := by
    intro event he
    obtain ⟨attempt, -, ha⟩ := List.mem_filterMap.mp he
    exact Attempt.isStatement_of_event? ha
  have hnarrow (p : Event → Bool) (hp : ∀ event, p event = true → event.tells = true) :
      added.filter p = (told attempts failure).filter p := by
    rw [← h, List.filter_filter]
    refine List.filter_congr fun event _ => ?_
    cases he : p event with
    | false => rfl
    | true => rw [hp event he, Bool.and_self]
  refine ⟨?_, ?_, ?_⟩
  · rw [List.filter_map, hnarrow _ fun event he => ?_, told, List.filter_append,
      List.filter_eq_nil_iff.mpr fun event he => ?_, List.nil_append]
    · cases failure <;> rfl
    · exact fun hlevel => (hstatement event he).2 (eq_of_beq hlevel)
    · exact Bool.or_eq_true_iff.mpr (Or.inr he)
  · rw [hnarrow _ fun event he => ?_, told, List.filter_append,
      List.filter_eq_self.mpr fun event he => ?_, List.map_append, hrecords]
    · cases failure <;> simp [Event.isStatement]
    · exact (hstatement event he).1
    · exact Bool.or_eq_true_iff.mpr (Or.inl he)
  · rw [h, told, List.map_append, hrecords]
    cases failure <;> rfl

/--
A request only adds to the log. It logs an error exactly if one of its statements fails, and then one: the
message of the failure that it ends in, which is that of the last statement, at its offset and depth. Before
it stand the records of all statements that could be decoded, in order. The same is true of a stream that is
run on its own at any depth, be it inside of another, and of the failure that it answers.
-/
theorem Request.failure_is_logged_once (session : Session) :
    (∀ (request : Request) (count : Nat),
      (∃ added, (request.reached session count).session.events.toList = session.events.toList ++ added ∧
        Accounts (request.attempts session count) (request.reached session count).failure added) ∧
      ∀ failure, (request.reached session count).failure = some failure →
        (request.reached session count).result = .error failure ∧
        ∃ earlier last, request.attempts session count = earlier ++ [last] ∧
          last.failure? = some failure ∧ ∀ attempt ∈ earlier, attempt.failure? = none) ∧
    ∀ fuel code offset depth answer after,
      Code.run fuel code offset depth session = some (answer, after) →
      ∃ count failure added, after.events.toList = session.events.toList ++ added ∧
        Accounts ((ofStream session depth code offset).attempts count) failure added ∧
        answer = failure.elim (.ok ()) .error := by
  refine ⟨fun request count => ⟨?_, fun failure hfailure => ⟨?_, ?_⟩⟩, ?_⟩
  · obtain ⟨added, hadded, htold⟩ := request.tells_reached session count
    exact ⟨added, hadded, accounts_of_told htold⟩
  · rw [result, hfailure]
  · have hhistory := request.history session count
    rw [hfailure] at hhistory
    exact hhistory.exists_last
  · intro fuel code offset depth answer after hrun
    obtain ⟨final, ⟨count, rfl, -⟩, houtcome⟩ := ends_iff_settles.mp ⟨fuel, hrun⟩
    have hworking : (ofStream session depth code offset).failure = none := rfl
    obtain ⟨added, hadded, htold⟩ := tells_steps hworking count
    rw [outcome_eq, Prod.mk.injEq] at houtcome
    obtain ⟨rfl, rfl⟩ := houtcome
    exact ⟨count, _, added, hadded, accounts_of_told htold, rfl⟩

/-- A machine whose RAM holds a comparison, and behind it a division of 1 by 0. -/
def dividing : Session :=
  .ofMachine {
    registers := .zeros 1
    ram := ⟨.ram, #[0x0C, 0, 3, 0, 0, 0, 1, 3, 0, 0, 0, 4, 0x05, 0, 3, 0, 0, 0, 1, 3, 0, 0, 0, 0, 0, 0, 0, 0, 0]⟩
    disk := .ofBytes "" #[]
    console := .ofInput []
    maxDepth := 1 }

/-- The division fails in a nested stream. The run reports it, and so does the stream when it is run alone. -/
theorem Request.failure_is_logged_once_dividing :
    let request := Request.run #[0x10, 0, 3, 0, 0, 0, 0, 3, 0, 0, 0, 29]
    let failure : Failure := ⟨.divisionByZero, 12, 1⟩
    let record : Record := ⟨.error, "error [pos: 0xc, depth: 1]: division by zero"⟩
    (request.reached dividing 3).result = .error failure ∧
    (∃ execute compare divide, request.attempts dividing 3 = [execute, compare, divide] ∧
      divide.failure? = some failure ∧ execute.failure? = none ∧ compare.failure? = none) ∧
    (∃ added, (request.reached dividing 3).session.events.toList = dividing.events.toList ++ added ∧
      (added.map Event.record).filter (·.level == .error) = [record]) ∧
    ∃ after added, Code.run 3 (.ram 0 29) 0 1 dividing = some (.error failure, after) ∧
      after.events.toList = dividing.events.toList ++ added ∧
      (added.map Event.record).filter (·.level == .error) = [record] := by
  intro request failure record
  obtain ⟨hrequests, hstreams⟩ := failure_is_logged_once dividing
  obtain ⟨⟨added, hadded, haccounts⟩, hfails⟩ := hrequests request 3
  have hfailure : (request.reached dividing 3).failure = some failure := by decide +kernel
  have hrecord : errorRecords (some failure) = [record] := by decide +kernel
  obtain ⟨hresult, earlier, last, hattempts, hlast, hearlier⟩ := hfails failure hfailure
  refine ⟨hresult, ?_, ⟨added, hadded, ?_⟩, ?_⟩
  · have hlength : (request.attempts dividing 3).length = 3 := by decide +kernel
    rw [hattempts, List.length_append, List.length_singleton] at hlength
    obtain ⟨execute, compare, rfl⟩ := List.length_eq_two.mp (Nat.succ.inj hlength)
    exact ⟨execute, compare, last, hattempts, hlast, hearlier _ (by simp), hearlier _ (by simp)⟩
  · rw [haccounts.errors, hfailure, hrecord]
  · have hanswer : (Code.run 3 (.ram 0 29) 0 1 dividing).map Prod.fst = some (.error failure) := by
      decide +kernel
    obtain ⟨⟨_, after⟩, hrun, rfl⟩ := Option.map_eq_some_iff.mp hanswer
    obtain ⟨_, _ | _, added, hadded, haccounts, hfailed⟩ := hstreams _ _ _ _ _ _ hrun
    · cases hfailed
    · obtain rfl := Except.error.inj hfailed
      exact ⟨after, added, hrun, hadded, haccounts.errors.trans hrecord⟩

end Log

end Microcomputer
