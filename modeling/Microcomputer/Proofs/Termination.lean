import Microcomputer.Proofs.History
import Microcomputer.Proofs.Streams

/-!
# What keeps a machine running

Statements lie one behind another, and nested streams lie inside RAM and only so deep. So unless a branch goes
back, or stays where it is, every stream ends, however its code has been changed in the meantime. A frame is
worth what the rest of its stream may cost, and every step lowers the sum over all frames.
-/
namespace Microcomputer

/--
The most steps that one statement can take in RAM of `size` bytes if `levels` more streams may begin inside
its own: a step of its own, and those of a stream of the whole RAM with the one that ends it.
-/
def statementCost (size : Nat) : Nat → Nat
  | 0 => 1
  | levels + 1 => 1 + (size * statementCost size levels + 1)

/-- The most steps that `length` bytes of a stream can take, with the one that ends it. -/
def streamCost (size levels length : Nat) : Nat :=
  length * statementCost size levels + 1

theorem statementCost_pos (size levels : Nat) : 0 < statementCost size levels := by
  cases levels with
  | zero => exact Nat.one_pos
  | succ levels =>
    rw [statementCost]
    omega

theorem streamCost_mono (size levels : Nat) {length longer : Nat} (h : length ≤ longer) :
    streamCost size levels length ≤ streamCost size levels longer :=
  Nat.succ_le_succ (Nat.mul_le_mul_right _ h)

/-- Going forward pays for one statement. -/
theorem streamCost_advance (size levels : Nat) {offset next limit : Nat} (hnext : offset < next)
    (hlimit : offset < limit) :
    statementCost size levels + streamCost size levels (limit - next) ≤
      streamCost size levels (limit - offset) := by
  have hless : limit - next + 1 ≤ limit - offset := by omega
  have hcost := Nat.mul_le_mul_right (statementCost size levels) hless
  rw [Nat.succ_mul] at hcost
  rw [streamCost, streamCost]
  omega

/-- A nested stream is paid for by the statement that begins it. -/
theorem streamCost_lt_statementCost {size depth limit length : Nat} (hdepth : depth < limit)
    (hlength : length ≤ size) :
    streamCost size (limit - (depth + 1)) length < statementCost size (limit - depth) := by
  obtain ⟨levels, hlevels⟩ : ∃ levels, limit - depth = levels + 1 := ⟨limit - depth - 1, by omega⟩
  have hinner : limit - (depth + 1) = levels := by omega
  have hlonger := streamCost_mono size levels hlength
  rw [hlevels, hinner, statementCost]
  exact Nat.lt_one_add_iff.mpr hlonger

namespace Attempt

/-- The offset that the statement reads as the target of its branch. -/
def branchTarget? (attempt : Attempt) : Option Int32 :=
  match attempt.statement? with
  | some ⟨.branch, _, [target], _⟩ => (target.read attempt.before.registers attempt.before.ram).toOption
  | _ => none

/-- The statement branches to its own offset or to an earlier one. A negative offset is a fault instead. -/
def branchesBack (attempt : Attempt) : Bool :=
  attempt.branchTarget?.any fun (target : Int32) => 0 ≤ target.toInt ∧ target.toInt ≤ attempt.offset

/-- Where a statement passes control in its stream lies behind it, unless it branches back. -/
theorem offset_lt_of_goto (attempt : Attempt) {next : Nat} {after : Session}
    (ho : attempt.outcome = .ok (.goto next) after) (hforward : attempt.branchesBack = false) :
    attempt.offset < next := by
  have hbehind (instruction : Instruction) : attempt.offset < attempt.offset + instruction.length :=
    Nat.lt_add_of_pos_right (Nat.lt_of_lt_of_le (by decide) instruction.headerSize_le_length)
  obtain ⟨statement, hupcoming, hpasses⟩ | ⟨instruction, _, -, hnext⟩ := Code.executeAt_passes ho
  · by_cases hbranch : statement.instruction = .branch
    · obtain ⟨_, condition, operands, arity⟩ := statement
      subst hbranch
      obtain ⟨target, rfl⟩ := List.length_eq_one_iff.mp arity
      have hstatement := statement?_eq_some.mpr hupcoming
      obtain ⟨value, hsign, hnext, hread⟩ :=
        Statement.perform_branch_target.of_ok ((outcome_of_statement? hstatement).symm.trans ho)
      cases hnext
      have htarget : attempt.branchTarget? = some value := by
        rw [branchTarget?, hstatement]
        exact congrArg Except.toOption hread
      rw [branchesBack, htarget, Option.any_some, decide_eq_false_iff_not] at hforward
      omega
    · rw [hpasses.2 hbranch]
      exact hbehind statement.instruction
  · cases hnext
    exact hbehind instruction

/-- A nested stream is not too deep and fits into RAM, and its caller goes on behind the statement. -/
theorem calls_within (attempt : Attempt) {start length resume : Nat} {after : Session}
    (ho : attempt.outcome = .ok (.call start length resume) after) :
    attempt.depth < attempt.before.maxDepth ∧ length ≤ attempt.before.ram.size ∧ attempt.offset < resume := by
  obtain ⟨hdepth, hrange⟩ := Code.range_of_call ho
  refine ⟨hdepth, Nat.le_trans (Nat.le_add_left ..) hrange, ?_⟩
  obtain ⟨statement, -, hpasses⟩ | ⟨_, _, -, hnone⟩ := Code.executeAt_passes ho
  · have hpositive : 0 < statement.instruction.length :=
      Nat.lt_of_lt_of_le (by decide) statement.instruction.headerSize_le_length
    rw [hpasses.2]
    exact Nat.lt_add_of_pos_right hpositive
  · cases hnone

end Attempt

namespace Engine

/-- The most steps that frames can take: each may run to the end of its stream. -/
def framesCost (size limit base : Nat) : List Frame → Nat
  | [] => 0
  | frame :: outer =>
    streamCost size (limit - (base + outer.length)) (frame.code.size - frame.offset) +
      framesCost size limit base outer

section FramesCost

variable {size limit base start length offset next : Nat} {code : Code} {outer : List Frame}

theorem framesCost_advance (hnext : offset < next) (hlimit : offset < code.size) :
    framesCost size limit base (⟨code, next⟩ :: outer) <
      framesCost size limit base (⟨code, offset⟩ :: outer) := by
  have hpaid := streamCost_advance size (limit - (base + outer.length)) hnext hlimit
  have hstatement := statementCost_pos size (limit - (base + outer.length))
  simp only [framesCost]
  omega

theorem framesCost_call (hnext : offset < next) (hlimit : offset < code.size)
    (hdepth : base + outer.length < limit) (hlength : length ≤ size) :
    framesCost size limit base (⟨.ram start length, 0⟩ :: ⟨code, next⟩ :: outer) <
      framesCost size limit base (⟨code, offset⟩ :: outer) := by
  have hpaid := streamCost_advance size (limit - (base + outer.length)) hnext hlimit
  have hnested := streamCost_lt_statementCost hdepth hlength
  have hwhole : (Code.ram start length).size - 0 = length := rfl
  simp only [framesCost, List.length_cons, ← Nat.add_assoc, hwhole]
  omega

theorem framesCost_end (frame : Frame) :
    framesCost size limit base outer < framesCost size limit base (frame :: outer) := by
  simp only [framesCost, streamCost]
  omega

end FramesCost

/-- The most steps that the engine can take without a branch that goes back. -/
def cost (engine : Engine) : Nat :=
  match engine.failure with
  | none =>
    framesCost engine.session.machine.ram.size engine.session.machine.maxDepth engine.base engine.frames
  | some _ => 0

theorem cost_pos {engine : Engine} (h : engine.done = false) : 0 < engine.cost := by
  match engine with
  | ⟨_, _, [], none⟩ => cases h
  | ⟨_, _, [], some _⟩ => cases h
  | ⟨_, _, _ :: _, some _⟩ => cases h
  | ⟨_, _, frame :: _, none⟩ => exact Nat.lt_of_le_of_lt (Nat.zero_le _) (framesCost_end frame)

theorem cost_of_shape {session after : Session} {base : Nat}
    (h : after.machine.shape = session.machine.shape) (frames : List Frame) :
    cost ⟨after, base, frames, none⟩ =
      framesCost session.machine.ram.size session.machine.maxDepth base frames := by
  have hsize : after.machine.ram.size = session.machine.ram.size := congrArg Shape.ram h
  have hlimit : after.machine.maxDepth = session.machine.maxDepth := congrArg Shape.maxDepth h
  rw [← hsize, ← hlimit]
  rfl

/-- Every step that does not branch back lowers the cost. -/
theorem cost_step {engine : Engine} (hdone : engine.done = false)
    (hforward : ∀ attempt ∈ engine.attempt?, attempt.branchesBack = false) :
    engine.step.cost < engine.cost := by
  match engine with
  | ⟨_, _, [], none⟩ => cases hdone
  | ⟨_, _, [], some _⟩ => cases hdone
  | ⟨_, _, _ :: _, some _⟩ => cases hdone
  | ⟨session, base, frame :: outer, none⟩ =>
    have hkeeps := frame.code.executeAt_keeps_shape frame.offset (base + outer.length) session
    let attempt : Attempt := ⟨frame.code, frame.offset, base + outer.length, session⟩
    apply step_cases frame outer
      (motive := fun next => next.cost < cost ⟨session, base, frame :: outer, none⟩)
    case fails => exact fun _ _ _ _ => Nat.lt_of_le_of_lt (Nat.zero_le _) (framesCost_end frame)
    case goes =>
      intro next after hs hx
      have hnext := attempt.offset_lt_of_goto hx (hforward attempt (if_pos hs))
      rw [cost_of_shape (hkeeps.of_ok hx)]
      exact framesCost_advance hnext hs
    case calls =>
      intro start length resume after hs hx
      obtain ⟨hdepth, hlength, hresume⟩ := attempt.calls_within hx
      rw [cost_of_shape (hkeeps.of_ok hx)]
      exact framesCost_call hresume hs hdepth hlength
    case leaves =>
      intro after _ hx
      have hshape : after.machine.shape = session.machine.shape := hkeeps.of_ok hx
      have hnoted : (after.note (.halted (base + outer.length) frame.offset)).machine.shape = _ := hshape
      rw [cost_of_shape hnoted]
      exact framesCost_end frame
    case ends => exact fun _ => framesCost_end frame

/-- Steps that do not branch back are paid for by the cost, and so are the statements that they come to. -/
theorem cost_steps {engine : Engine} {count : Nat}
    (hforward : ∀ attempt ∈ engine.attempts count, attempt.branchesBack = false) :
    (engine.attempts count).length + (engine.steps count).cost ≤ engine.cost ∧
      ((engine.steps count).done = true ∨ count + (engine.steps count).cost ≤ engine.cost) := by
  induction count with
  | zero => simp [attempts, steps]
  | succ count ih =>
    rw [attempts_succ, List.forall_mem_append] at hforward
    obtain ⟨hlength, hcount⟩ := ih hforward.1
    cases hdone : (engine.steps count).done with
    | true =>
      rw [attempts_succ, attempt?_of_done hdone, steps_succ, step_of_done hdone]
      simp only [Option.toList_none, List.append_nil]
      exact ⟨hlength, Or.inl hdone⟩
    | false =>
      have hless := cost_step hdone fun attempt hattempt =>
        hforward.2 attempt (Option.mem_toList.mpr hattempt)
      have hsingle : ((engine.steps count).attempt?.toList).length ≤ 1 := by
        cases (engine.steps count).attempt? <;> simp
      rcases hcount with hended | hcount
      · rw [hdone] at hended
        cases hended
      · rw [attempts_succ, List.length_append, steps_succ]
        exact ⟨by omega, Or.inr (by omega)⟩

/-- An engine that never branches back comes to rest once its cost is spent. -/
theorem done_of_forward {engine : Engine}
    (hforward : ∀ attempt ∈ engine.attempts engine.cost, attempt.branchesBack = false) :
    (engine.steps engine.cost).done = true := by
  obtain ⟨-, hended | hcount⟩ := cost_steps hforward
  · exact hended
  · cases hdone : (engine.steps engine.cost).done with
    | true => rfl
    | false =>
      have hpositive := cost_pos hdone
      omega

theorem cost_ofImage (session : Session) (image : Bytes) : (ofImage session image).cost =
    streamCost session.machine.ram.size session.machine.maxDepth image.size :=
  rfl

/-- One statement and the streams that it begins cost no more than all of its stream. -/
theorem cost_ofStatement (session : Session) (code : Code) (offset : Nat) :
    (ofStatement session code offset).1.cost + 1 ≤
      streamCost session.machine.ram.size session.machine.maxDepth code.size := by
  have hnone : 0 + 1 ≤ streamCost session.machine.ram.size session.machine.maxDepth code.size :=
    Nat.le_add_left ..
  have hshape := ofStatement_shape session code offset
  rw [ofStatement] at hshape ⊢
  cases hx : code.executeAt offset 0 session with
  | error fault after => exact hnone
  | ok transfer after =>
    rw [hx] at hshape
    cases transfer with
    | goto next => exact hnone
    | leave => exact hnone
    | call start length resume =>
      obtain ⟨hdepth, hlength, -⟩ := Attempt.calls_within ⟨code, offset, 0, session⟩ hx
      have hnested := streamCost_lt_statementCost hdepth hlength
      have hsome := Nat.mul_le_mul_right (statementCost session.machine.ram.size session.machine.maxDepth)
        (Nat.one_le_of_lt (Code.lt_size_of_executeAt hx))
      rw [Nat.one_mul] at hsome
      have hcost : cost ⟨after, 1, [⟨.ram start length, 0⟩], none⟩ =
          streamCost session.machine.ram.size (session.machine.maxDepth - (0 + 1)) length :=
        cost_of_shape hshape _
      rw [hcost]
      exact Nat.succ_le_succ (Nat.le_of_lt (Nat.lt_of_lt_of_le hnested hsome))

end Engine

/-- The bytes that the request is about. -/
def Request.image : Request → Bytes
  | run image | execute image _ => image

/--
Unless a branch goes back to its own offset or to an earlier one, whatever a machine is asked for comes to
an end, and the statements that it executes or skips are bounded by the sizes of the bytecode and of RAM and
by the depth limit.
-/
theorem Request.ends_unless_branching_back (request : Request) (session : Session)
    (hforward : ∀ count, ∀ attempt ∈ request.attempts session count, attempt.branchesBack = false) :
    let bound := streamCost session.machine.ram.size session.machine.maxDepth request.image.size
    (∃ count ≤ bound, (request.reached session count).done = true) ∧
      ∀ count, (request.attempts session count).length ≤ bound := by
  intro bound
  cases request with
  | run image =>
    have hcost : _ = bound := Engine.cost_ofImage session image
    refine ⟨⟨_, Nat.le_of_eq hcost, Engine.done_of_forward (hforward _)⟩, fun count => ?_⟩
    have hpaid := (Engine.cost_steps (hforward count)).1
    rw [hcost] at hpaid
    exact Nat.le_trans (Nat.le_add_right ..) hpaid
  | execute image offset =>
    have hcost : _ ≤ bound := Engine.cost_ofStatement session (.image image) offset
    have hafter (count : Nat) := (List.forall_mem_cons.mp (hforward count)).2
    refine ⟨⟨_, Nat.le_of_succ_le hcost, Engine.done_of_forward (hafter _)⟩, fun count => ?_⟩
    have hpaid := (Engine.cost_steps (hafter count)).1
    have hlength : ((Request.execute image offset).attempts session count).length = _ := List.length_cons
    omega

/-- A machine whose RAM holds a statement that runs itself. -/
def nesting : Session :=
  .ofMachine {
    registers := .zeros 1
    ram := ⟨.ram, #[0x10, 0, 3, 0, 0, 0, 0, 3, 0, 0, 0, 12]⟩
    disk := .ofBytes "" #[]
    console := .ofInput []
    maxDepth := 2 }

/-- A branch goes forward to a stream that begins itself anew until it is too deep. -/
theorem Request.ends_unless_branching_back_nesting :
    let request := Request.run #[0x0D, 0, 3, 0, 0, 0, 8, 255, 0x10, 0, 3, 0, 0, 0, 0, 3, 0, 0, 0, 12]
    (request.reached nesting 4).failure = some ⟨.depthExceeded 2, 0, 2⟩ ∧
      (∃ count ≤ streamCost 12 2 20, (request.reached nesting count).done = true) ∧
      ∀ count, (request.attempts nesting count).length ≤ streamCost 12 2 20 := by
  intro request
  have hdone : (request.reached nesting 4).done = true := by decide +kernel
  have hall : (request.attempts nesting 4).all (fun attempt => !attempt.branchesBack) = true := by
    decide +kernel
  have hforward (count : Nat) : ∀ attempt ∈ request.attempts nesting count, attempt.branchesBack = false := by
    intro attempt hattempt
    have hearly := Engine.mem_attempts_of_done hdone hattempt
    simpa using List.all_eq_true.mp hall attempt hearly
  exact ⟨by decide +kernel, request.ends_unless_branching_back nesting hforward⟩

end Microcomputer
