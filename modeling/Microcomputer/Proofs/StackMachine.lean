import Mathlib.Logic.Relation
import Microcomputer.Proofs.Recursion

/-!
# The stack machine

The rules by which a stack of frames moves, with the checks of a nested stream written out on the values
of its operands. The engine takes exactly these moves, and a run by recursion ends as they do.
-/
namespace Microcomputer

open Execution

/-- The statement that `frame` runs next takes effect and asks for a nested stream. -/
structure Frame.Calls (frame : Frame) (machine : Machine) (statement : Statement)
    (offset length : Int32) : Prop where
  inside : frame.offset < frame.code.size
  upcoming : frame.code.upcoming frame.offset machine = .ok (.execute statement)
  instruction : statement.instruction = .execute
  operands : ∃ first second, statement.operands = [first, second] ∧
    first.read machine.registers machine.ram = .ok offset ∧
    second.read machine.registers machine.ram = .ok length

/-- The statement that `frame` runs next takes effect and ends the stream. -/
structure Frame.Stops (frame : Frame) (machine : Machine) (statement : Statement) : Prop where
  inside : frame.offset < frame.code.size
  upcoming : frame.code.upcoming frame.offset machine = .ok (.execute statement)
  instruction : statement.instruction = .stop

/-- A range of RAM that can be run: it is not empty and lies inside. -/
def Machine.Holds (machine : Machine) (offset length : Int32) : Prop :=
  0 ≤ offset.toInt ∧ 0 < length.toInt ∧ offset.toInt + length.toInt ≤ machine.ram.size

theorem Machine.Holds.ne_zero {machine : Machine} {offset length : Int32}
    (h : machine.Holds offset length) : length ≠ 0 := by
  rintro rfl
  exact absurd h.2.1 (by decide)

namespace Engine

/-- One move of the frames on the stack, innermost first; `base` is the depth of the outermost. -/
inductive Move : Engine → Engine → Prop
  /-- A statement runs against the top frame, or is skipped there. -/
  | proceed {session after : Session} {base next : Nat} {frame : Frame} {outer : List Frame}
      (inside : frame.offset < frame.code.size)
      (plain : ∀ statement offset length, ¬ frame.Calls session.machine statement offset length)
      (runs : frame.code.executeAt frame.offset (base + outer.length) session =
        .ok (.goto next) after) :
      Move ⟨session, base, frame :: outer, none⟩ ⟨after, base, ⟨frame.code, next⟩ :: outer, none⟩
  /-- A nested stream of length zero is passed over, wherever it starts and however deep it is. -/
  | pass {session : Session} {base : Nat} {frame : Frame} {outer : List Frame} {statement : Statement}
      {offset : Int32} (calls : frame.Calls session.machine statement offset 0) :
      Move ⟨session, base, frame :: outer, none⟩
        ⟨session.note (.executed (base + outer.length) frame.offset statement), base,
          ⟨frame.code, frame.offset + statement.length⟩ :: outer, none⟩
  | push {session : Session} {base : Nat} {frame : Frame} {outer : List Frame} {statement : Statement}
      {offset length : Int32} (calls : frame.Calls session.machine statement offset length)
      (room : base + outer.length < session.machine.maxDepth)
      (holds : session.machine.Holds offset length) :
      Move ⟨session, base, frame :: outer, none⟩
        ⟨(session.note (.executed (base + outer.length) frame.offset statement)).note
            (.entered (base + outer.length + 1) offset.toInt.toNat
              (offset.toInt.toNat + length.toInt.toNat)), base,
          ⟨.ram offset.toInt.toNat length.toInt.toNat, 0⟩ ::
            ⟨frame.code, frame.offset + statement.length⟩ :: outer, none⟩
  | tooDeep {session : Session} {base : Nat} {frame : Frame} {outer : List Frame}
      {statement : Statement} {offset length : Int32}
      (calls : frame.Calls session.machine statement offset length) (asked : length ≠ 0)
      (full : session.machine.maxDepth ≤ base + outer.length) :
      Move ⟨session, base, frame :: outer, none⟩
        (fail (session.note (.executed (base + outer.length) frame.offset statement)) base
          (frame :: outer) (.depthExceeded session.machine.maxDepth) frame.offset
          (base + outer.length))
  | outside {session : Session} {base : Nat} {frame : Frame} {outer : List Frame}
      {statement : Statement} {offset length : Int32}
      (calls : frame.Calls session.machine statement offset length) (asked : length ≠ 0)
      (room : base + outer.length < session.machine.maxDepth)
      (beyond : ¬ session.machine.Holds offset length) :
      Move ⟨session, base, frame :: outer, none⟩
        (fail (session.note (.executed (base + outer.length) frame.offset statement)) base
          (frame :: outer)
          (.addressOutOfRange session.machine.ram.region
            (if 0 ≤ offset.toInt ∧ length.toInt < 0 then offset.toInt + length.toInt
              else offset.toInt) session.machine.ram.size)
          frame.offset (base + outer.length))
  | leave {session : Session} {base : Nat} {frame : Frame} {outer : List Frame}
      {statement : Statement} (stops : frame.Stops session.machine statement) :
      Move ⟨session, base, frame :: outer, none⟩
        ⟨(session.note (.executed (base + outer.length) frame.offset statement)).note
          (.halted (base + outer.length) frame.offset), base, outer, none⟩
  | exhaust {session : Session} {base : Nat} {frame : Frame} {outer : List Frame}
      (past : frame.code.size ≤ frame.offset) :
      Move ⟨session, base, frame :: outer, none⟩
        ⟨session.note (.exhausted (base + outer.length) frame.code.size), base, outer, none⟩
  | abort {session after : Session} {base : Nat} {frame : Frame} {outer : List Frame} {fault : Fault}
      (inside : frame.offset < frame.code.size)
      (plain : ∀ statement offset length, ¬ frame.Calls session.machine statement offset length)
      (fails : frame.code.executeAt frame.offset (base + outer.length) session =
        .error fault after) :
      Move ⟨session, base, frame :: outer, none⟩
        ⟨after.note (.failed ⟨fault, frame.offset, base + outer.length⟩), base, frame :: outer,
          some ⟨fault, frame.offset, base + outer.length⟩⟩

end Engine

namespace Execution

variable {session : Session} {offset length : Int32} {depth resume : Nat}

theorem nestedStart_of_room {machine : Machine} (room : depth < machine.maxDepth)
    (holds : machine.Holds offset length) :
    nestedStart machine offset length depth = .ok offset.toInt.toNat := by
  obtain ⟨ho, hl, hs⟩ := holds
  have ho' : ¬ offset < 0 := by rw [Int32.lt_iff_toInt_lt]; simp; omega
  have hl' : ¬ length < 0 := by rw [Int32.lt_iff_toInt_lt]; simp; omega
  rw [nestedStart, if_neg (by omega), if_neg ho', if_neg hl', Memory.locate_eq_ok_iff]
  omega

theorem nestedStart_of_full {machine : Machine} (full : machine.maxDepth ≤ depth) :
    nestedStart machine offset length depth = .error (.depthExceeded machine.maxDepth) := by
  rw [nestedStart, if_pos full]

theorem nestedStart_of_beyond {machine : Machine} (room : depth < machine.maxDepth)
    (asked : length ≠ 0) (beyond : ¬ machine.Holds offset length) :
    nestedStart machine offset length depth =
      .error (.addressOutOfRange machine.ram.region
        (if 0 ≤ offset.toInt ∧ length.toInt < 0 then offset.toInt + length.toInt
          else offset.toInt) machine.ram.size) := by
  have hzero : length.toInt ≠ 0 := fun h => asked (Int32.toInt_inj.mp h)
  have ho : offset < 0 ↔ offset.toInt < 0 := Int32.lt_iff_toInt_lt
  have hl : length < 0 ↔ length.toInt < 0 := Int32.lt_iff_toInt_lt
  rw [nestedStart, if_neg (by omega)]
  by_cases hneg : offset.toInt < 0
  · rw [if_pos (ho.mpr hneg), if_neg (by omega)]
    rfl
  rw [if_neg (mt ho.mp hneg)]
  by_cases hlen : length.toInt < 0
  · rw [if_pos (hl.mpr hlen), if_pos (by omega)]
    rfl
  · rw [if_neg (mt hl.mp hlen), if_neg (by omega)]
    refine Memory.locate_eq_error_iff.mpr ⟨Or.inr ?_, rfl⟩
    unfold Machine.Holds at beyond
    omega

theorem enter_zero : enter offset 0 depth resume session = .ok (.goto resume) session := rfl

theorem enter_of_ok {start : Nat} (asked : length ≠ 0)
    (h : nestedStart session.machine offset length depth = .ok start) :
    enter offset length depth resume session =
      .ok (.call start length.toInt.toNat resume)
        (session.note (.entered (depth + 1) start (start + length.toInt.toNat))) := by
  rw [enter, if_neg asked, bind_ok (observe_ok h)]
  rfl

theorem enter_of_error {fault : Fault} (asked : length ≠ 0)
    (h : nestedStart session.machine offset length depth = .error fault) :
    enter offset length depth resume session = .error fault session := by
  rw [enter, if_neg asked, bind_error (observe_error h)]

end Execution

namespace Frame

variable {frame : Frame} {session : Session} {statement : Statement} {depth : Nat}

theorem Calls.executeAt {offset length : Int32}
    (h : frame.Calls session.machine statement offset length) :
    frame.code.executeAt frame.offset depth session =
      enter offset length depth (frame.offset + statement.length)
        (session.note (.executed depth frame.offset statement)) := by
  obtain ⟨-, hu, hi, first, second, ho, hfirst, hsecond⟩ := h
  rw [Code.executeAt_of_execute hu]
  obtain ⟨_, condition, _, arity⟩ := statement
  subst hi
  subst ho
  refine (bind_ok (observe_ok ?_)).trans (bind_ok (observe_ok ?_))
  · exact hfirst
  · exact hsecond

theorem Calls.executeAt_zero {offset : Int32} (h : frame.Calls session.machine statement offset 0) :
    frame.code.executeAt frame.offset depth session =
      .ok (.goto (frame.offset + statement.length))
        (session.note (.executed depth frame.offset statement)) :=
  h.executeAt.trans enter_zero

theorem Calls.executeAt_of_ok {offset length : Int32} {start : Nat}
    (h : frame.Calls session.machine statement offset length) (asked : length ≠ 0)
    (hstart : nestedStart session.machine offset length depth = .ok start) :
    frame.code.executeAt frame.offset depth session =
      .ok (.call start length.toInt.toNat (frame.offset + statement.length))
        ((session.note (.executed depth frame.offset statement)).note
          (.entered (depth + 1) start (start + length.toInt.toNat))) :=
  h.executeAt.trans (enter_of_ok asked hstart)

theorem Calls.executeAt_of_error {offset length : Int32} {fault : Fault}
    (h : frame.Calls session.machine statement offset length) (asked : length ≠ 0)
    (hstart : nestedStart session.machine offset length depth = .error fault) :
    frame.code.executeAt frame.offset depth session =
      .error fault (session.note (.executed depth frame.offset statement)) :=
  h.executeAt.trans (enter_of_error asked hstart)

theorem Stops.executeAt (h : frame.Stops session.machine statement) :
    frame.code.executeAt frame.offset depth session =
      .ok .leave (session.note (.executed depth frame.offset statement)) := by
  obtain ⟨-, hu, hi⟩ := h
  rw [Code.executeAt_of_execute hu]
  obtain ⟨_, condition, operands, arity⟩ := statement
  subst hi
  obtain rfl := List.length_eq_zero_iff.mp arity
  rfl

theorem stops_of_leave {after : Session} (inside : frame.offset < frame.code.size)
    (h : frame.code.executeAt frame.offset depth session = .ok .leave after) :
    ∃ statement, frame.Stops session.machine statement := by
  rcases Code.executeAt_passes h with ⟨statement, hu, hi⟩ | ⟨_, _, _, ht⟩
  · exact ⟨statement, inside, hu, hi⟩
  · cases ht

/-- Whatever starts a nested stream has read both of its operands. -/
theorem calls_of_call {after : Session} {start length resume : Nat}
    (inside : frame.offset < frame.code.size)
    (h : frame.code.executeAt frame.offset depth session = .ok (.call start length resume) after) :
    ∃ statement offset length, frame.Calls session.machine statement offset length := by
  rcases Code.executeAt_passes h with ⟨statement, hu, hi, -⟩ | ⟨_, _, _, ht⟩
  · rw [Code.executeAt_of_execute hu] at h
    obtain ⟨instruction, condition, operands, arity⟩ := statement
    dsimp only at hi
    subst hi
    obtain ⟨first, second, rfl⟩ := List.length_eq_two.mp arity
    cases hfirst : first.read session.machine.registers session.machine.ram with
    | error fault =>
      have he := (bind_error (observe_error hfirst)).symm.trans h
      cases he
    | ok offset =>
      cases hsecond : second.read session.machine.registers session.machine.ram with
      | error fault =>
        have he := (bind_ok (observe_ok hfirst)).symm.trans h
        have he' := (bind_error (observe_error hsecond)).symm.trans he
        cases he'
      | ok length =>
        exact ⟨_, offset, length, inside, hu, rfl, first, second, rfl, hfirst, hsecond⟩
  · cases ht

end Frame

namespace Engine

/-- Every move is the step of the engine. -/
theorem Move.eq_step {engine next : Engine} (h : Move engine next) :
    engine.done = false ∧ next = engine.step := by
  cases h with
  | proceed inside _ runs => exact ⟨rfl, (step_of_goto _ _ inside runs).symm⟩
  | pass calls => exact ⟨rfl, (step_of_goto _ _ calls.inside calls.executeAt_zero).symm⟩
  | push calls room holds =>
    have hx := calls.executeAt_of_ok holds.ne_zero (nestedStart_of_room room holds)
    exact ⟨rfl, (step_of_call _ _ calls.inside hx).symm⟩
  | tooDeep calls asked full =>
    have hx := calls.executeAt_of_error asked (nestedStart_of_full full)
    exact ⟨rfl, (step_of_error _ _ calls.inside hx).symm⟩
  | outside calls asked room beyond =>
    have hx := calls.executeAt_of_error asked (nestedStart_of_beyond room asked beyond)
    exact ⟨rfl, (step_of_error _ _ calls.inside hx).symm⟩
  | leave stops => exact ⟨rfl, (step_of_leave _ _ stops.inside stops.executeAt).symm⟩
  | exhaust past => exact ⟨rfl, (step_of_exhausted _ _ past).symm⟩
  | abort inside _ fails => exact ⟨rfl, (step_of_error _ _ inside fails).symm⟩

/-- An engine that has not come to rest moves, and moves as it steps. -/
theorem move_step {engine : Engine} (h : engine.done = false) : Move engine engine.step := by
  match engine with
  | ⟨_, _, [], none⟩ => cases h
  | ⟨_, _, [], some _⟩ => cases h
  | ⟨_, _, _ :: _, some _⟩ => cases h
  | ⟨session, base, frame :: outer, none⟩ =>
    by_cases hcalls : ∃ statement offset length, frame.Calls session.machine statement offset length
    · obtain ⟨statement, offset, length, calls⟩ := hcalls
      by_cases asked : length = 0
      · subst asked
        rw [step_of_goto _ _ calls.inside calls.executeAt_zero]
        exact .pass calls
      by_cases room : base + outer.length < session.machine.maxDepth
      · by_cases holds : session.machine.Holds offset length
        · rw [step_of_call _ _ calls.inside
            (calls.executeAt_of_ok asked (nestedStart_of_room room holds))]
          exact .push calls room holds
        · rw [step_of_error _ _ calls.inside
            (calls.executeAt_of_error asked (nestedStart_of_beyond room asked holds))]
          exact .outside calls asked room holds
      · have full := Nat.not_lt.mp room
        rw [step_of_error _ _ calls.inside (calls.executeAt_of_error asked (nestedStart_of_full full))]
        exact .tooDeep calls asked full
    · have plain : ∀ statement offset length,
          ¬ frame.Calls session.machine statement offset length :=
        fun statement offset length calls => hcalls ⟨statement, offset, length, calls⟩
      apply step_cases frame outer (motive := Move ⟨session, base, frame :: outer, none⟩)
      case fails => exact fun fault after inside hx => .abort inside plain hx
      case goes => exact fun next after inside hx => .proceed inside plain hx
      case calls =>
        intro start length resume after inside hx
        exact absurd (Frame.calls_of_call inside hx) hcalls
      case leaves =>
        intro after inside hx
        obtain ⟨statement, stops⟩ := Frame.stops_of_leave inside hx
        -- The statement that ends a stream leaves no other session than the one noted.
        obtain ⟨-, rfl⟩ := EStateM.Result.ok.inj (hx.symm.trans stops.executeAt)
        exact .leave stops
      case ends => exact fun past => .exhaust past

theorem move_iff {engine next : Engine} :
    Move engine next ↔ engine.done = false ∧ next = engine.step := by
  constructor
  · exact Move.eq_step
  · rintro ⟨h, rfl⟩
    exact move_step h

/-- The engines that the moves reach are those that the steps reach. -/
theorem moves_iff {engine later : Engine} :
    Relation.ReflTransGen Move engine later ↔ ∃ n, engine.steps n = later := by
  constructor
  · intro h
    induction h with
    | refl => exact ⟨0, rfl⟩
    | tail _ hmove ih =>
      obtain ⟨n, rfl⟩ := ih
      exact ⟨n + 1, by rw [steps_succ, (move_iff.mp hmove).2]⟩
  · rintro ⟨n, rfl⟩
    induction n with
    | zero => exact .refl
    | succ n ih =>
      rw [steps_succ]
      cases hd : (engine.steps n).done with
      | true => rw [step_of_done hd]; exact ih
      | false => exact ih.tail (move_step hd)

/-- The height of the stack never passes the limit on the depth by more than one. -/
def Bounded (engine : Engine) : Prop :=
  engine.base + engine.frames.length ≤ engine.session.machine.maxDepth + 1

theorem Move.bounded {engine next : Engine} (h : Move engine next) (hb : engine.Bounded) :
    next.Bounded := by
  have hlimit : next.session.machine.maxDepth = engine.session.machine.maxDepth := by
    rw [h.eq_step.2]
    exact congrArg Shape.maxDepth (step_shape engine)
  unfold Bounded at hb ⊢
  rw [hlimit]
  -- Only a push makes the stack higher, and it has checked that there is room.
  cases h with
  | push _ room _ => simp only [List.length_cons] at hb ⊢; omega
  | leave | exhaust => simp only [List.length_cons] at hb ⊢; omega
  | _ => exact hb

theorem bounded_of_moves {engine later : Engine} (h : Relation.ReflTransGen Move engine later)
    (hb : engine.Bounded) : later.Bounded := by
  induction h with
  | refl => exact hb
  | tail _ hmove ih => exact hmove.bounded ih

/--
Running an image by recursion ends with a result and a session exactly when the stack machine comes to
rest with them. Its moves are the steps of the engine, and its stack stays within the limit on the depth.
-/
theorem run_refines_moves (image : Bytes) (session : Session) :
    (∀ ended, (Code.image image).Ends 0 0 session ended ↔
      ∃ final, Relation.ReflTransGen Move (ofImage session image) final ∧ final.done = true ∧
        final.outcome = ended) ∧
    (∀ engine next, Move engine next ↔ engine.done = false ∧ next = engine.step) ∧
    ∀ engine, Relation.ReflTransGen Move (ofImage session image) engine →
      engine.frames.length ≤ session.machine.maxDepth + 1 := by
  refine ⟨fun ended => ?_, fun engine next => move_iff, fun engine h => ?_⟩
  · rw [ends_iff_settles]
    constructor
    · rintro ⟨final, ⟨n, hn, hdone⟩, hout⟩
      exact ⟨final, moves_iff.mpr ⟨n, hn⟩, hdone, hout⟩
    · rintro ⟨final, hmoves, hdone, hout⟩
      obtain ⟨n, hn⟩ := moves_iff.mp hmoves
      exact ⟨final, ⟨n, hn, hdone⟩, hout⟩
  · have hb : engine.Bounded := bounded_of_moves h (by simp [Bounded, ofImage])
    obtain ⟨n, rfl⟩ := moves_iff.mp h
    have hshape := congrArg Shape.maxDepth (steps_shape n (ofImage session image))
    have hlimit : ((ofImage session image).steps n).session.machine.maxDepth =
        session.machine.maxDepth := hshape
    unfold Bounded at hb
    omega

end Engine

end Microcomputer
