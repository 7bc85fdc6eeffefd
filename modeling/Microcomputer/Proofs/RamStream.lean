import Microcomputer.Proofs.Recursion

/-!
# Streams in RAM

A stream that lies in RAM is read anew for each statement, so every step of it is that of an image with
the bytes that its range holds at that moment. If these never change, its whole run is that of the image.
-/
namespace Microcomputer

/-- The bytes that a range of RAM holds. -/
def Machine.range (machine : Machine) (start length : Nat) : Bytes :=
  machine.ram.bytes.extract start (start + length)

theorem Machine.size_range {machine : Machine} {start length : Nat}
    (h : start + length ≤ machine.ram.size) : (machine.range start length).size = length := by
  have hs : start + length ≤ machine.ram.bytes.size := h
  rw [range, Array.size_extract]
  omega

namespace Code

variable {start length : Nat}

theorem fetch_ram {machine : Machine} {offset count : Nat}
    (h : start + length ≤ machine.ram.size) (hcount : 0 < count) :
    (ram start length).fetch machine.ram offset count =
      (image (machine.range start length)).fetch machine.ram offset count := by
  have hbytes : start + length ≤ machine.ram.bytes.size := h
  have hsize : (image (machine.range start length)).size = (ram start length).size :=
    Machine.size_range h
  unfold fetch
  rw [hsize]
  by_cases havail : (ram start length).size - offset < count
  · rw [if_pos havail, if_pos havail]
  · rw [if_neg havail, if_neg havail]
    have hlen : (ram start length).size = length := rfl
    rw [hlen] at havail
    have hlocate : machine.ram.locate ((start + offset : Nat) : Int) count = .ok (start + offset) :=
      Memory.locate_eq_ok_iff.mpr ⟨rfl, by omega⟩
    show machine.ram.load _ count = _
    rw [Memory.load, hlocate]
    refine congrArg Except.ok (List.ext_getElem? fun i => ?_)
    rw [Bytes.getElem?_window, Bytes.getElem?_window, Machine.range, Array.getElem?_extract]
    by_cases hi : i < count
    · rw [if_pos hi, if_pos hi, if_pos (by omega), Nat.add_assoc]
    · rw [if_neg hi, if_neg hi]

theorem upcoming_ram {machine : Machine} (h : start + length ≤ machine.ram.size) (offset : Nat) :
    (ram start length).upcoming offset machine =
      (image (machine.range start length)).upcoming offset machine := by
  have hlength (instruction : Instruction) : 0 < instruction.length := by
    unfold Instruction.length
    omega
  simp only [upcoming, fetch_ram h (hlength _), fetch_ram h (show 0 < Statement.headerSize by decide)]

theorem executeAt_ram {session : Session} (h : start + length ≤ session.machine.ram.size)
    (offset depth : Nat) :
    (ram start length).executeAt offset depth session =
      (image (session.machine.range start length)).executeAt offset depth session :=
  executeAt_congr (upcoming_ram h offset)

/-- Runs the statement at `offset` to its end, with the nested stream that it may start. -/
def stepOver (fuel : Nat) (code : Code) (offset depth : Nat) (session : Session) :
    Option (Except Failure Flow × Session) :=
  match code.executeAt offset depth session with
  | .ok (.goto next) session => some (.ok (.goto next), session)
  | .ok (.call start length resume) session =>
    match run fuel (.ram start length) 0 (depth + 1) session with
    | none => none
    | some (.error failure, session) => some (.error failure, session)
    | some (.ok (), session) => some (.ok (.goto resume), session)
  | .ok .leave session => some (.ok .halt, session)
  | .error fault session =>
    some (.error ⟨fault, offset, depth⟩, session.note (.failed ⟨fault, offset, depth⟩))

/-- A run goes from statement to statement, each run to its end. -/
theorem run_eq_stepOver (fuel : Nat) (code : Code) (offset depth : Nat) (session : Session) :
    code.run (fuel + 1) offset depth session =
      if offset < code.size then
        match code.stepOver fuel offset depth session with
        | none => none
        | some (.error failure, session) => some (.error failure, session)
        | some (.ok .halt, session) => some (.ok (), session.note (.halted depth offset))
        | some (.ok (.goto next), session) => code.run fuel next depth session
      else some (.ok (), session.note (.exhausted depth code.size)) := by
  rw [run, stepOver]
  by_cases hs : offset < code.size
  · rw [if_pos hs, if_pos hs]
    cases code.executeAt offset depth session with
    | error fault after => rfl
    | ok transfer after =>
      cases transfer with
      | goto next => rfl
      | leave => rfl
      | call start length resume =>
        dsimp only
        cases run fuel (ram start length) 0 (depth + 1) after with
        | none => rfl
        | some inner =>
          obtain ⟨result, back⟩ := inner
          cases result <;> rfl
  · rw [if_neg hs, if_neg hs]

theorem stepOver_ram {session : Session} (h : start + length ≤ session.machine.ram.size)
    (fuel offset depth : Nat) :
    (ram start length).stepOver fuel offset depth session =
      (image (session.machine.range start length)).stepOver fuel offset depth session := by
  rw [stepOver, stepOver, executeAt_ram h]

end Code

/-- The frames with another code in the outermost of them. -/
def recodeLast (code : Code) : List Frame → List Frame
  | [] => []
  | [frame] => [⟨code, frame.offset⟩]
  | frame :: next :: outer => frame :: recodeLast code (next :: outer)

namespace Engine

variable {code : Code} {engine : Engine}

/-- The engine with another code in its outermost frame, at the same offset. -/
def recode (code : Code) (engine : Engine) : Engine :=
  { engine with frames := recodeLast code engine.frames }

/-- The outermost frame, if it is still there, has this code. -/
def Runs (code : Code) (engine : Engine) : Prop :=
  engine.recode code = engine

@[simp]
theorem length_recodeLast (code : Code) (frames : List Frame) :
    (recodeLast code frames).length = frames.length := by
  fun_induction recodeLast code frames with
  | case1 => rfl
  | case2 => rfl
  | case3 frame next outer ih => simp only [List.length_cons] at ih ⊢; omega

theorem recodeLast_recodeLast (code other : Code) (frames : List Frame) :
    recodeLast code (recodeLast other frames) = recodeLast code frames := by
  fun_induction recodeLast other frames with
  | case1 => rfl
  | case2 => rfl
  | case3 frame next outer ih =>
    cases outer <;> simp_all [recodeLast]

theorem recode_recode (code other : Code) (engine : Engine) :
    (engine.recode other).recode code = engine.recode code := by
  simp only [recode, recodeLast_recodeLast]

theorem done_recode : (engine.recode code).done = engine.done := by
  obtain ⟨session, base, frames, failure⟩ := engine
  match frames with
  | [] => rfl
  | [_] => rfl
  | _ :: _ :: _ => rfl

theorem outcome_recode (code : Code) (engine : Engine) :
    (engine.recode code).outcome = engine.outcome := rfl

/-- A stream on its own steps as any code with the same statement at its offset. -/
theorem step_lone {other : Code} {session : Session} {base offset : Nat}
    (hsize : other.size = code.size ∨ offset < code.size ∧ offset < other.size)
    (hexecute : other.executeAt offset base session = code.executeAt offset base session) :
    step ⟨session, base, [⟨other, offset⟩], none⟩ =
      (step ⟨session, base, [⟨code, offset⟩], none⟩).recode other := by
  have hinside : offset < code.size → offset < other.size := by omega
  apply step_cases ⟨code, offset⟩ []
    (motive := fun next => step ⟨session, base, [⟨other, offset⟩], none⟩ = next.recode other)
  case fails =>
    intro fault after hs hx
    exact step_of_error ⟨other, offset⟩ [] (hinside hs) (hexecute.trans hx)
  case goes =>
    intro next after hs hx
    exact step_of_goto ⟨other, offset⟩ [] (hinside hs) (hexecute.trans hx)
  case calls =>
    intro start length resume after hs hx
    exact step_of_call ⟨other, offset⟩ [] (hinside hs) (hexecute.trans hx)
  case leaves =>
    intro after hs hx
    exact step_of_leave ⟨other, offset⟩ [] (hinside hs) (hexecute.trans hx)
  case ends =>
    intro (hs : code.size ≤ offset)
    have hsame : other.size = code.size := by omega
    rw [step_of_exhausted ⟨other, offset⟩ [] (hsame ▸ hs), hsame]
    rfl

/-- Below a nested stream the outermost frame only waits, whatever its code is. -/
theorem step_nested (code : Code) (session : Session) (base : Nat) (frame next : Frame)
    (outer : List Frame) :
    step ⟨session, base, frame :: recodeLast code (next :: outer), none⟩ =
      (step ⟨session, base, frame :: next :: outer, none⟩).recode code := by
  have hlen := length_recodeLast code (next :: outer)
  apply step_cases frame (next :: outer)
    (motive := fun engine => step ⟨session, base, frame :: recodeLast code (next :: outer), none⟩ =
      engine.recode code)
  case fails =>
    intro fault after hs hx
    rw [step_of_error _ _ hs (hlen ▸ hx), hlen]
    rfl
  case goes =>
    intro offset after hs hx
    exact step_of_goto _ _ hs (hlen ▸ hx)
  case calls =>
    intro start length resume after hs hx
    exact step_of_call _ _ hs (hlen ▸ hx)
  case leaves =>
    intro after hs hx
    rw [step_of_leave _ _ hs (hlen ▸ hx), hlen]
    rfl
  case ends =>
    intro hs
    rw [step_of_exhausted _ _ hs, hlen]
    rfl

/-- The frame of a range steps as if it ran an image of the bytes that the range holds now. -/
theorem step_recode {start length : Nat} (hruns : engine.Runs (.ram start length))
    (h : start + length ≤ engine.session.machine.ram.size) :
    (engine.recode (.image (engine.session.machine.range start length))).step =
      engine.step.recode (.image (engine.session.machine.range start length)) := by
  match engine with
  | ⟨_, _, [], none⟩ => rfl
  | ⟨_, _, [], some _⟩ => rfl
  | ⟨_, _, [_], some _⟩ => rfl
  | ⟨_, _, _ :: _ :: _, some _⟩ => rfl
  | ⟨session, base, [frame], none⟩ =>
    obtain ⟨_, offset⟩ := frame
    obtain ⟨rfl, -⟩ := Frame.mk.inj (List.cons.inj (congrArg frames hruns)).1
    exact step_lone (Or.inl (Machine.size_range h)) (Code.executeAt_ram h offset base).symm
  | ⟨session, base, frame :: next :: outer, none⟩ =>
    exact step_nested _ session base frame next outer

/-- A step leaves the code of the outermost frame as it is. -/
theorem Runs.step (hruns : engine.Runs code) : engine.step.Runs code := by
  match engine with
  | ⟨_, _, [], none⟩ => rfl
  | ⟨_, _, [], some _⟩ => rfl
  | ⟨_, _, [_], some _⟩ => exact hruns
  | ⟨_, _, _ :: _ :: _, some _⟩ => exact hruns
  | ⟨session, base, [frame], none⟩ =>
    obtain ⟨_, offset⟩ := frame
    obtain ⟨rfl, -⟩ := Frame.mk.inj (List.cons.inj (congrArg frames hruns)).1
    exact (step_lone (Or.inl rfl) rfl).symm
  | ⟨session, base, frame :: next :: outer, none⟩ =>
    have houter : recodeLast code (next :: outer) = next :: outer :=
      (List.cons.inj (congrArg frames hruns)).2
    have hstep := step_nested code session base frame next outer
    rw [houter] at hstep
    exact hstep.symm

theorem Runs.steps (hruns : engine.Runs code) (n : Nat) : (engine.steps n).Runs code := by
  induction n with
  | zero => exact hruns
  | succ n ih => rw [steps_succ]; exact ih.step

/-- No statement of the run changes a byte of the range. -/
def Undisturbed (start length : Nat) (engine : Engine) : Prop :=
  ∀ n, (engine.steps (n + 1)).session.machine.range start length =
    (engine.steps n).session.machine.range start length

theorem Undisturbed.range_eq {start length : Nat} (h : engine.Undisturbed start length) (n : Nat) :
    (engine.steps n).session.machine.range start length =
      engine.session.machine.range start length := by
  induction n with
  | zero => rfl
  | succ n ih => rw [h n, ih]

/-- The run of a range that keeps its bytes is that of the image with them. -/
theorem steps_recode {start length : Nat} {program : Bytes} (hruns : engine.Runs (.ram start length))
    (inside : start + length ≤ engine.session.machine.ram.size)
    (hprogram : engine.session.machine.range start length = program)
    (h : engine.Undisturbed start length ∨ (engine.recode (.image program)).Undisturbed start length)
    (n : Nat) : (engine.recode (.image program)).steps n = (engine.steps n).recode (.image program) := by
  induction n with
  | zero => rfl
  | succ n ih =>
    have hsize := congrArg Shape.ram (steps_shape n engine)
    -- Up to here both runs have the same RAM, so it does not matter which of them keeps the range.
    have hrange : (engine.steps n).session.machine.range start length = program := by
      rcases h with h | h
      · rw [h.range_eq, hprogram]
      · have hn := h.range_eq n
        rw [ih] at hn
        exact hn.trans hprogram
    have hstep := step_recode (hruns.steps n) (Nat.le_trans inside (Nat.le_of_eq hsize.symm))
    rw [hrange] at hstep
    rw [steps_succ, ih, hstep, steps_succ]

/-- Both runs settle after as many steps, or neither does. -/
theorem ends_recode {start length base : Nat} {program : Bytes} {session : Session}
    (inside : start + length ≤ session.machine.ram.size)
    (hprogram : session.machine.range start length = program)
    (h : (ofStream session base (.ram start length) 0).Undisturbed start length ∨
      (ofStream session base (.image program) 0).Undisturbed start length)
    (ended : Except Failure Unit × Session) :
    (Code.ram start length).Ends 0 base session ended ↔
      (Code.image program).Ends 0 base session ended := by
  have hruns : (ofStream session base (.ram start length) 0).Runs (.ram start length) := rfl
  have hsteps := steps_recode hruns inside hprogram h
  rw [ends_iff_settles, ends_iff_settles]
  constructor
  · rintro ⟨final, ⟨n, rfl, hdone⟩, hout⟩
    refine ⟨_, ⟨n, hsteps n, ?_⟩, ?_⟩
    · rw [done_recode]; exact hdone
    · rw [outcome_recode]; exact hout
  · rintro ⟨final, ⟨n, rfl, hdone⟩, hout⟩
    have he := hsteps n
    rw [show ofStream session base (.image program) 0 = _ from rfl] at hdone hout
    refine ⟨_, ⟨n, rfl, ?_⟩, ?_⟩
    · rw [← done_recode, ← he]; exact hdone
    · rw [← outcome_recode (.image program), ← he]; exact hout

/--
A statement of a stream in RAM does what it does in an image of the bytes that the range holds at that
moment, whatever the program has written there. So if no statement of the run changes the range, the run
goes through the same offsets and sessions as that of the image and ends as it does or not at all, and
two copies of a program that are left alone run alike.
-/
theorem ram_stream_runs_as_image (session : Session) (depth start length : Nat)
    (inside : start + length ≤ session.machine.ram.size) :
    (∀ offset fuel, (Code.ram start length).stepOver fuel offset depth session =
      (Code.image (session.machine.range start length)).stepOver fuel offset depth session) ∧
    (∀ n, let now := (ofStream session depth (.ram start length) 0).steps n
      now.step = ((now.recode (.image (now.session.machine.range start length))).step).recode
        (.ram start length)) ∧
    (∀ program, session.machine.range start length = program →
      ((ofStream session depth (.ram start length) 0).Undisturbed start length ∨
        (ofStream session depth (.image program) 0).Undisturbed start length) →
      (∀ n, (ofStream session depth (.image program) 0).steps n =
        ((ofStream session depth (.ram start length) 0).steps n).recode (.image program)) ∧
      ∀ ended, (Code.ram start length).Ends 0 depth session ended ↔
        (Code.image program).Ends 0 depth session ended) ∧
    ∀ other, other + length ≤ session.machine.ram.size →
      session.machine.range other length = session.machine.range start length →
      (ofStream session depth (.ram start length) 0).Undisturbed start length →
      (ofStream session depth (.ram other length) 0).Undisturbed other length →
      ∀ ended, (Code.ram start length).Ends 0 depth session ended ↔
        (Code.ram other length).Ends 0 depth session ended := by
  have hruns : (ofStream session depth (.ram start length) 0).Runs (.ram start length) := rfl
  refine ⟨fun offset fuel => Code.stepOver_ram inside fuel offset depth, fun n => ?_,
    fun program hprogram h => ?_, fun other hother hsame h h' ended => ?_⟩
  · have hsize := congrArg Shape.ram (steps_shape n (ofStream session depth (.ram start length) 0))
    have hstep := step_recode (hruns.steps n) (Nat.le_trans inside (Nat.le_of_eq hsize.symm))
    have hback := (hruns.steps n).step
    dsimp only
    rw [hstep, recode_recode]
    exact hback.symm
  · exact ⟨steps_recode hruns inside hprogram h, ends_recode inside hprogram h⟩
  · rw [ends_recode inside rfl (Or.inl h), ends_recode hother hsame (Or.inl h')]

/-- A run that settles has only finitely many steps that could disturb a range. -/
theorem undisturbed_of_done {start length n : Nat} (hdone : (engine.steps n).done = true)
    (h : ∀ k < n, (engine.steps (k + 1)).session.machine.range start length =
      (engine.steps k).session.machine.range start length) :
    engine.Undisturbed start length := by
  intro k
  by_cases hk : k < n
  · exact h k hk
  · obtain ⟨m, rfl⟩ := Nat.exists_eq_add_of_le (Nat.not_lt.mp hk)
    have hrest (count : Nat) : engine.steps (n + count) = engine.steps n := by
      rw [steps_add, steps_of_done hdone]
    rw [Nat.add_assoc, hrest, hrest]

/-- Two copies of a program that runs the stream behind them and then writes behind that. -/
def twoCopies : Session :=
  let program : List UInt8 :=
    [0x10, 0, 3, 0, 0, 3, 4, 3, 0, 0, 0, 2, 0x01, 0, 3, 0, 0, 0, 5, 2, 0, 0, 3, 6, 0x11, 0]
  .ofMachine {
    registers := .zeros 1
    ram := ⟨.ram, (program ++ program ++ [0x11, 0, 0, 0, 0, 0]).toArray⟩
    disk := .ofBytes "" #[]
    console := .ofInput []
    maxDepth := 4 }

theorem ram_stream_runs_as_image_twoCopies :
    (ofStream twoCopies 1 (.ram 0 26) 0).Undisturbed 0 26 ∧
    (ofStream twoCopies 1 (.ram 26 26) 0).Undisturbed 26 26 ∧
    ∀ ended, (Code.ram 0 26).Ends 0 1 twoCopies ended ↔ (Code.ram 26 26).Ends 0 1 twoCopies ended := by
  have h : (ofStream twoCopies 1 (.ram 0 26) 0).Undisturbed 0 26 :=
    undisturbed_of_done (n := 4) (by decide +kernel) (by decide +kernel)
  have h' : (ofStream twoCopies 1 (.ram 26 26) 0).Undisturbed 26 26 :=
    undisturbed_of_done (n := 4) (by decide +kernel) (by decide +kernel)
  have hruns := ram_stream_runs_as_image twoCopies 1 0 26 (by decide)
  exact ⟨h, h', hruns.2.2.2 26 (by decide) (by decide) h h'⟩

end Engine
end Microcomputer
