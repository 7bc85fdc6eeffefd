import Microcomputer.Proofs.Control
import Microcomputer.Run

/-!
# Runs by recursion and by steps

Running a stream by recursion ends exactly when the engine that holds its frame on top of others gives
that frame up, or fails, after finitely many steps, and both leave the same session.
-/
namespace Microcomputer

/-- The run of the stream from `offset` on comes to an end. -/
def Code.Ends (code : Code) (offset depth : Nat) (session : Session)
    (ended : Except Failure Unit × Session) : Prop :=
  ∃ fuel, code.run fuel offset depth session = some ended

theorem Code.Ends.unique {code : Code} {offset depth : Nat} {session : Session}
    {a b : Except Failure Unit × Session} (ha : code.Ends offset depth session a)
    (hb : code.Ends offset depth session b) : a = b := by
  obtain ⟨m, hm⟩ := ha
  obtain ⟨n, hn⟩ := hb
  have h := Code.run_mono (Nat.le_max_left m n) hm
  rw [Code.run_mono (Nat.le_max_right m n) hn] at h
  exact (Option.some.inj h).symm

namespace Code

variable {code : Code} {offset depth : Nat} {session after back : Session}
  {ended : Except Failure Unit × Session}

theorem ends_of_goto {next : Nat} (hs : offset < code.size)
    (hx : code.executeAt offset depth session = .ok (.goto next) after)
    (h : code.Ends next depth after ended) : code.Ends offset depth session ended := by
  obtain ⟨fuel, hf⟩ := h
  refine ⟨fuel + 1, ?_⟩
  simp only [run, hs, ↓reduceIte, hx]
  exact hf

theorem ends_of_leave (hs : offset < code.size)
    (hx : code.executeAt offset depth session = .ok .leave after) :
    code.Ends offset depth session (.ok (), after.note (.halted depth offset)) := by
  refine ⟨1, ?_⟩
  simp only [run, hs, ↓reduceIte, hx]

theorem ends_of_error {fault : Fault} (hs : offset < code.size)
    (hx : code.executeAt offset depth session = .error fault after) :
    code.Ends offset depth session
      (.error ⟨fault, offset, depth⟩, after.note (.failed ⟨fault, offset, depth⟩)) := by
  refine ⟨1, ?_⟩
  simp only [run, hs, ↓reduceIte, hx]

theorem ends_of_exhausted (hs : code.size ≤ offset) :
    code.Ends offset depth session (.ok (), session.note (.exhausted depth code.size)) := by
  refine ⟨1, ?_⟩
  simp only [run, Nat.not_lt.mpr hs, ↓reduceIte]

variable {start length resume : Nat}

theorem ends_of_call (hs : offset < code.size)
    (hx : code.executeAt offset depth session = .ok (.call start length resume) after)
    (hinner : (ram start length).Ends 0 (depth + 1) after (.ok (), back))
    (h : code.Ends resume depth back ended) : code.Ends offset depth session ended := by
  obtain ⟨m, hm⟩ := hinner
  obtain ⟨n, hn⟩ := h
  refine ⟨max m n + 1, ?_⟩
  simp only [run, hs, ↓reduceIte, hx, run_mono (Nat.le_max_left m n) hm]
  exact run_mono (Nat.le_max_right m n) hn

theorem ends_of_call_error {failure : Failure} (hs : offset < code.size)
    (hx : code.executeAt offset depth session = .ok (.call start length resume) after)
    (hinner : (ram start length).Ends 0 (depth + 1) after (.error failure, back)) :
    code.Ends offset depth session (.error failure, back) := by
  obtain ⟨m, hm⟩ := hinner
  refine ⟨m + 1, ?_⟩
  simp only [run, hs, ↓reduceIte, hx, hm]

end Code

namespace Engine

section Step

variable {session after : Session} {base : Nat} (frame : Frame) (outer : List Frame)

theorem step_of_goto {offset : Nat} (hs : frame.offset < frame.code.size)
    (hx : frame.code.executeAt frame.offset (base + outer.length) session =
      .ok (.goto offset) after) :
    step ⟨session, base, frame :: outer, none⟩ = ⟨after, base, ⟨frame.code, offset⟩ :: outer, none⟩ := by
  simp only [step, hs, ↓reduceIte, hx]

theorem step_of_call {start length resume : Nat} (hs : frame.offset < frame.code.size)
    (hx : frame.code.executeAt frame.offset (base + outer.length) session =
      .ok (.call start length resume) after) :
    step ⟨session, base, frame :: outer, none⟩ =
      ⟨after, base, ⟨.ram start length, 0⟩ :: ⟨frame.code, resume⟩ :: outer, none⟩ := by
  simp only [step, hs, ↓reduceIte, hx]

theorem step_of_leave (hs : frame.offset < frame.code.size)
    (hx : frame.code.executeAt frame.offset (base + outer.length) session = .ok .leave after) :
    step ⟨session, base, frame :: outer, none⟩ =
      ⟨after.note (.halted (base + outer.length) frame.offset), base, outer, none⟩ := by
  simp only [step, hs, ↓reduceIte, hx]

theorem step_of_error {fault : Fault} (hs : frame.offset < frame.code.size)
    (hx : frame.code.executeAt frame.offset (base + outer.length) session = .error fault after) :
    step ⟨session, base, frame :: outer, none⟩ =
      fail after base (frame :: outer) fault frame.offset (base + outer.length) := by
  simp only [step, hs, ↓reduceIte, hx]

theorem step_of_exhausted (hs : frame.code.size ≤ frame.offset) :
    step ⟨session, base, frame :: outer, none⟩ =
      ⟨session.note (.exhausted (base + outer.length) frame.code.size), base, outer, none⟩ := by
  simp only [step, Nat.not_lt.mpr hs, ↓reduceIte]

/-- What holds of every engine that the top frame can step to holds of the next one. -/
theorem step_cases {motive : Engine → Prop}
    (fails : ∀ fault after, frame.offset < frame.code.size →
      frame.code.executeAt frame.offset (base + outer.length) session = .error fault after →
      motive (fail after base (frame :: outer) fault frame.offset (base + outer.length)))
    (goes : ∀ next after, frame.offset < frame.code.size →
      frame.code.executeAt frame.offset (base + outer.length) session = .ok (.goto next) after →
      motive ⟨after, base, ⟨frame.code, next⟩ :: outer, none⟩)
    (calls : ∀ start length resume after, frame.offset < frame.code.size →
      frame.code.executeAt frame.offset (base + outer.length) session =
        .ok (.call start length resume) after →
      motive ⟨after, base, ⟨.ram start length, 0⟩ :: ⟨frame.code, resume⟩ :: outer, none⟩)
    (leaves : ∀ after, frame.offset < frame.code.size →
      frame.code.executeAt frame.offset (base + outer.length) session = .ok .leave after →
      motive ⟨after.note (.halted (base + outer.length) frame.offset), base, outer, none⟩)
    (ends : frame.code.size ≤ frame.offset →
      motive ⟨session.note (.exhausted (base + outer.length) frame.code.size), base, outer, none⟩) :
    motive (step ⟨session, base, frame :: outer, none⟩) := by
  by_cases hs : frame.offset < frame.code.size
  · cases hx : frame.code.executeAt frame.offset (base + outer.length) session with
    | error fault after => rw [step_of_error _ _ hs hx]; exact fails fault after hs hx
    | ok transfer after =>
      cases transfer with
      | goto next => rw [step_of_goto _ _ hs hx]; exact goes next after hs hx
      | call start length resume =>
        rw [step_of_call _ _ hs hx]
        exact calls start length resume after hs hx
      | leave => rw [step_of_leave _ _ hs hx]; exact leaves after hs hx
  · have he := Nat.not_lt.mp hs
    rw [step_of_exhausted _ _ he]
    exact ends he

theorem steps_succ (count : Nat) (engine : Engine) :
    engine.steps (count + 1) = (engine.steps count).step :=
  steps_add count 1 engine

/-- No step changes the shape of the machine. -/
theorem step_shape (engine : Engine) :
    engine.step.session.machine.shape = engine.session.machine.shape := by
  match engine with
  | ⟨_, _, [], none⟩ => rfl
  | ⟨_, _, [], some _⟩ => rfl
  | ⟨_, _, _ :: _, some _⟩ => rfl
  | ⟨session, base, frame :: outer, none⟩ =>
    have hkeeps := frame.code.executeAt_keeps_shape frame.offset (base + outer.length) session
    apply step_cases frame outer
      (motive := fun next => next.session.machine.shape = session.machine.shape)
    case fails =>
      intro fault after hs hx
      exact (hkeeps.of_error hx : after.machine.shape = _)
    case goes =>
      intro next after hs hx
      exact (hkeeps.of_ok hx : after.machine.shape = _)
    case calls =>
      intro start length resume after hs hx
      exact (hkeeps.of_ok hx : after.machine.shape = _)
    case leaves =>
      intro after hs hx
      exact (hkeeps.of_ok hx : after.machine.shape = _)
    case ends => exact fun _ => rfl

theorem steps_shape (count : Nat) (engine : Engine) :
    (engine.steps count).session.machine.shape = engine.session.machine.shape := by
  induction count with
  | zero => rfl
  | succ count ih => rw [steps_succ, step_shape, ih]

theorem ofStatement_shape (session : Session) (code : Code) (offset : Nat) :
    (ofStatement session code offset).1.session.machine.shape = session.machine.shape := by
  have hkeeps := code.executeAt_keeps_shape offset 0 session
  rw [ofStatement]
  cases hx : code.executeAt offset 0 session with
  | error fault after => exact (hkeeps.of_error hx : after.machine.shape = _)
  | ok transfer after =>
    have hshape : after.machine.shape = session.machine.shape := hkeeps.of_ok hx
    cases transfer <;> exact hshape

/-- No step changes the depth of the outermost frame. -/
theorem step_base (engine : Engine) : engine.step.base = engine.base := by
  match engine with
  | ⟨_, _, [], none⟩ => rfl
  | ⟨_, _, [], some _⟩ => rfl
  | ⟨_, _, _ :: _, some _⟩ => rfl
  | ⟨session, base, frame :: outer, none⟩ =>
    apply step_cases frame outer (motive := fun next => next.base = base)
    case fails => exact fun _ _ _ _ => rfl
    case goes => exact fun _ _ _ _ => rfl
    case calls => exact fun _ _ _ _ _ _ => rfl
    case leaves => exact fun _ _ _ => rfl
    case ends => exact fun _ => rfl

theorem steps_base (count : Nat) (engine : Engine) : (engine.steps count).base = engine.base := by
  induction count with
  | zero => rfl
  | succ count ih => rw [steps_succ, step_base, ih]

end Step

/-- What the engine is once a run over the frames `outer` has ended as `ended` says. -/
def Shows (base : Nat) (outer : List Frame) (engine : Engine) :
    Except Failure Unit × Session → Prop
  | (.ok (), session) => engine = ⟨session, base, outer, none⟩
  | (.error failure, session) => ∃ frames, engine = ⟨session, base, frames, some failure⟩

theorem shows_later {base m : Nat} {outer : List Frame} {engine middle : Engine}
    {ended : Except Failure Unit × Session} (hm : engine.steps m = middle)
    (h : ∃ n, Shows base outer (middle.steps n) ended) :
    ∃ n, Shows base outer (engine.steps n) ended := by
  obtain ⟨n, hn⟩ := h
  exact ⟨m + n, by rw [steps_add, hm]; exact hn⟩

theorem steps_of_run {fuel : Nat} {code : Code} {offset base : Nat} {session : Session}
    {outer : List Frame} {ended : Except Failure Unit × Session}
    (h : code.run fuel offset (base + outer.length) session = some ended) :
    ∃ n, Shows base outer (steps n ⟨session, base, ⟨code, offset⟩ :: outer, none⟩) ended := by
  -- Induction on the fuel, for any frames below: a nested run is one over the frames of its caller.
  induction fuel generalizing code offset session outer ended with
  | zero => simp [Code.run] at h
  | succ fuel ih =>
    rw [Code.run] at h
    by_cases hs : offset < code.size
    · rw [if_pos hs] at h
      cases hx : code.executeAt offset (base + outer.length) session with
      | error fault after =>
        simp only [hx, Option.some.injEq] at h
        subst h
        exact ⟨1, ⟨code, offset⟩ :: outer, step_of_error ⟨code, offset⟩ outer hs hx⟩
      | ok transfer after =>
        cases transfer with
        | goto next =>
          simp only [hx] at h
          exact shows_later (m := 1) (step_of_goto ⟨code, offset⟩ outer hs hx) (ih h)
        | leave =>
          simp only [hx, Option.some.injEq] at h
          subst h
          exact ⟨1, step_of_leave ⟨code, offset⟩ outer hs hx⟩
        | call start length resume =>
          simp only [hx] at h
          have hcall := step_of_call ⟨code, offset⟩ outer hs hx
          cases hn : Code.run fuel (.ram start length) 0 (base + outer.length + 1) after with
          | none => simp [hn] at h
          | some inner =>
            have hbelow : Code.run fuel (.ram start length) 0
                (base + (⟨code, resume⟩ :: outer : List Frame).length) after = some inner := hn
            obtain ⟨m, hm⟩ := ih hbelow
            obtain ⟨result, back⟩ := inner
            cases result with
            | ok _ =>
              simp only [hn] at h
              exact shows_later (m := 1) hcall (shows_later hm (ih h))
            | error failure =>
              simp only [hn, Option.some.injEq] at h
              subst h
              obtain ⟨frames, hf⟩ := hm
              exact shows_later (m := 1) hcall ⟨m, frames, hf⟩
    · rw [if_neg hs, Option.some.injEq] at h
      subst h
      exact ⟨1, step_of_exhausted ⟨code, offset⟩ outer (Nat.not_lt.mp hs)⟩

/-- The engine that is about to run `code` from `offset` on at the depth `base`. -/
def ofStream (session : Session) (base : Nat) (code : Code) (offset : Nat) : Engine :=
  ⟨session, base, [⟨code, offset⟩], none⟩

theorem run_of_steps {n base : Nat} {code : Code} {offset : Nat} {session : Session}
    {outer : List Frame}
    (h : (steps n ⟨session, base, ⟨code, offset⟩ :: outer, none⟩).done = true) :
    ∃ m ended, m ≤ n ∧ code.Ends offset (base + outer.length) session ended ∧
      Shows base outer (steps m ⟨session, base, ⟨code, offset⟩ :: outer, none⟩) ended := by
  -- The frame is gone before the engine rests. A nested frame is gone even sooner, so that both the
  -- nested run and the rest of this one take fewer steps.
  induction n using Nat.strongRecOn generalizing code offset session outer with
  | ind n ih =>
    cases n with
    | zero => simp [steps, done] at h
    | succ n =>
      by_cases hs : offset < code.size
      · cases hx : code.executeAt offset (base + outer.length) session with
        | error fault after =>
          exact ⟨1, _, by omega, Code.ends_of_error hs hx, ⟨code, offset⟩ :: outer,
            step_of_error ⟨code, offset⟩ outer hs hx⟩
        | ok transfer after =>
          cases transfer with
          | goto next =>
            have hstep := step_of_goto ⟨code, offset⟩ outer hs hx
            rw [steps, hstep] at h
            obtain ⟨m, ended, hm, hends, hshow⟩ := ih n (by omega) h
            refine ⟨m + 1, ended, by omega, Code.ends_of_goto hs hx hends, ?_⟩
            rw [steps, hstep]
            exact hshow
          | leave =>
            have hstep := step_of_leave ⟨code, offset⟩ outer hs hx
            exact ⟨1, (.ok (), _), by omega, Code.ends_of_leave hs hx, hstep⟩
          | call start length resume =>
            have hstep := step_of_call ⟨code, offset⟩ outer hs hx
            rw [steps, hstep] at h
            obtain ⟨m, inner, hm, hinner, hback⟩ :=
              ih n (by omega) h
            obtain ⟨result, back⟩ := inner
            cases result with
            | error failure =>
              obtain ⟨frames, hf⟩ := hback
              refine ⟨m + 1, _, by omega, Code.ends_of_call_error hs hx hinner, frames, ?_⟩
              rw [steps, hstep]
              exact hf
            | ok _ =>
              have hsplit : n = m + (n - m) := by omega
              rw [hsplit, steps_add, hback] at h
              obtain ⟨k, ended, hk, hends, hshow⟩ := ih (n - m) (by omega) h
              refine ⟨m + k + 1, ended, by omega, Code.ends_of_call hs hx hinner hends, ?_⟩
              rw [steps, hstep, steps_add, hback]
              exact hshow
      · exact ⟨1, (.ok (), _), by omega, Code.ends_of_exhausted (Nat.not_lt.mp hs),
          step_of_exhausted ⟨code, offset⟩ outer (Nat.not_lt.mp hs)⟩

/-- How a run ended, and the session that it left. -/
def outcome (engine : Engine) : Except Failure Unit × Session :=
  match engine.failure with
  | none => (.ok (), engine.session)
  | some failure => (.error failure, engine.session)

theorem Shows.done_and_outcome {base : Nat} {engine : Engine} {ended : Except Failure Unit × Session}
    (h : Shows base [] engine ended) : engine.done = true ∧ engine.outcome = ended := by
  match ended with
  | (.ok (), after) =>
    rw [show engine = _ from h]
    exact ⟨rfl, rfl⟩
  | (.error failure, after) =>
    obtain ⟨frames, rfl⟩ := h
    exact ⟨by simp [done], rfl⟩

/-- A stream on its own ends by recursion as the engine that holds its frame settles. -/
theorem ends_iff_settles {code : Code} {offset base : Nat} {session : Session}
    {ended : Except Failure Unit × Session} :
    code.Ends offset base session ended ↔
      ∃ final, (ofStream session base code offset).Settles final ∧ final.outcome = ended := by
  constructor
  · rintro ⟨fuel, hf⟩
    have hlone : code.run fuel offset (base + ([] : List Frame).length) session = some ended := hf
    obtain ⟨n, hn⟩ := steps_of_run hlone
    exact ⟨_, ⟨n, rfl, hn.done_and_outcome.1⟩, hn.done_and_outcome.2⟩
  · rintro ⟨final, ⟨n, rfl, hdone⟩, rfl⟩
    have hlone : (steps n ⟨session, base, ⟨code, offset⟩ :: [], none⟩).done = true := hdone
    obtain ⟨m, other, -, hends, hm⟩ := run_of_steps hlone
    have hsame := Settles.unique ⟨n, rfl, hdone⟩ ⟨m, rfl, hm.done_and_outcome.1⟩
    rw [show steps n _ = steps m _ from hsame]
    exact hm.done_and_outcome.2 ▸ hends

end Engine
end Microcomputer
