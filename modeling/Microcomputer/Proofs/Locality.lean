import Microcomputer.Proofs.Streams

/-!
# Which bytes a run reads

A statement depends on its own bytes alone, and on no more than its header if it is skipped. So what lies
behind an image changes nothing until the run passes the end of the image, or needs bytes from behind it.
-/
namespace Microcomputer

/-- How many bytes of a statement decide what it does. -/
def Instruction.reads (instruction : Instruction) (condition : Condition) (compare : Int32) : Nat :=
  if condition.holds compare then instruction.length else Statement.headerSize

theorem Instruction.headerSize_le_reads (instruction : Instruction) (condition : Condition)
    (compare : Int32) : Statement.headerSize ≤ instruction.reads condition compare := by
  unfold reads
  split
  · exact instruction.headerSize_le_length
  · exact Nat.le_refl _

/-- A whole statement with this header lies in the image at `offset`, whatever its operands are. -/
structure Instruction.LiesAt (instruction : Instruction) (condition : Condition) (image : Bytes)
    (offset : Nat) : Prop where
  header : Statement.decodeHeader (image.window offset Statement.headerSize) = .ok (instruction, condition)
  inside : offset + instruction.length ≤ image.size

/-- A statement that needs bytes from behind the end of its stream. -/
def Fault.isTruncation : Fault → Bool
  | .truncatedStatement .. => true
  | _ => false

namespace Code

variable {front other : Bytes} {offset depth : Nat} {session : Session}

/-- What comes next is read from the bytes that count alone. -/
theorem upcoming_of_liesAt {instruction : Instruction} {condition : Condition} {machine : Machine}
    (h : instruction.LiesAt condition front offset) :
    (image front).upcoming offset machine =
      if condition.holds machine.registers.compare then
        .execute <$> Statement.decodeBody instruction condition
          (front.window offset (instruction.reads condition machine.registers.compare))
      else .ok (.skip instruction condition) := by
  have hheader := Nat.le_trans (Nat.add_le_add_left instruction.headerSize_le_length offset) h.inside
  have inside : (image front).Inside machine.ram := trivial
  refine (upcoming_of_whole inside hheader h.header h.inside).trans ?_
  by_cases hholds : condition.holds machine.registers.compare = true
  · simp only [hholds, ↓reduceIte, Instruction.reads]
    rfl
  · simp only [hholds, Bool.false_eq_true, ↓reduceIte]

/-- Two images with the same statement at an offset do the same there. -/
theorem executeAt_of_agree {instruction : Instruction} {condition : Condition}
    (h : instruction.LiesAt condition front offset) (inside : offset + instruction.length ≤ other.size)
    (agree : other.window offset (instruction.reads condition session.machine.registers.compare) =
      front.window offset (instruction.reads condition session.machine.registers.compare)) :
    (image other).executeAt offset depth session = (image front).executeAt offset depth session := by
  have hle := instruction.headerSize_le_reads condition session.machine.registers.compare
  have hheader : other.window offset Statement.headerSize = front.window offset Statement.headerSize := by
    rw [← Bytes.take_window hle, agree, Bytes.take_window hle]
  have hother : instruction.LiesAt condition other offset := ⟨hheader ▸ h.header, inside⟩
  apply executeAt_congr
  rw [upcoming_of_liesAt hother, upcoming_of_liesAt h, agree]

/-- Bytes appended to an image change only what the image lacks bytes for. -/
theorem fetch_append {ram : Memory} {length : Nat} (back : Bytes) (hs : offset < front.size)
    (h : ∀ fault, (image front).fetch ram offset length = .error fault → fault.isTruncation = false) :
    (image (front ++ back)).fetch ram offset length = (image front).fetch ram offset length := by
  have henough : ¬ (image front).size - offset < length := by
    intro hshort
    have hfault := h (.truncatedStatement length ((image front).size - offset)) (by rw [fetch, if_pos hshort])
    cases hfault
  have hin : offset + length ≤ front.size := by
    rw [size] at henough
    omega
  have hmore : offset + length ≤ (front ++ back).size := by
    rw [Array.size_append]
    omega
  rw [fetch_image hin, fetch_image hmore, Bytes.window_append_left hin]

theorem upcoming_append {machine : Machine} (back : Bytes) (hs : offset < front.size)
    (h : ∀ fault, (image front).upcoming offset machine = .error fault → fault.isTruncation = false) :
    (image (front ++ back)).upcoming offset machine = (image front).upcoming offset machine := by
  refine Eq.trans (congrArg (· >>= _) (fetch_append back hs fun fault hf => ?_)) ?_
  · exact h fault (bind_eq_error.mpr (Or.inl hf))
  refine bind_congr_of_ok fun header hheader => bind_congr_of_ok fun parts hparts => ?_
  have hbody (fault : Fault) (hf : (image front).fetch machine.ram offset parts.1.length = .error fault) :
      fault.isTruncation = false := by
    refine h fault (bind_eq_error.mpr (Or.inr ⟨header, hheader, ?_⟩))
    exact bind_eq_error.mpr (Or.inr ⟨parts, hparts, bind_eq_error.mpr (Or.inl hf)⟩)
  exact congrArg (· >>= _) (fetch_append back hs hbody)

theorem executeAt_append (back : Bytes) (hs : offset < front.size)
    (h : ∀ fault after, (image front).executeAt offset depth session = .error fault after →
      fault.isTruncation = false) :
    (image (front ++ back)).executeAt offset depth session =
      (image front).executeAt offset depth session :=
  executeAt_congr <| upcoming_append back hs fun fault hf => h fault session (executeAt_of_error hf)

end Code

/-- The failure is that of a statement that the end of the outermost stream cuts off. -/
def Failure.CutsOff (failure : Failure) : Prop :=
  failure.depth = 0 ∧ failure.fault.isTruncation = true

namespace Engine

variable {session : Session} {front back : Bytes} {engine : Engine}

/-- The outermost stream is past its end, and the engine is about to give it up. -/
def AtEnd (engine : Engine) : Prop :=
  engine.failure = none ∧ ∃ frame, engine.frames = [frame] ∧ frame.code.size ≤ frame.offset

theorem AtEnd.step (h : engine.AtEnd) : engine.step.frames = [] ∧ engine.step.failure = none := by
  obtain ⟨session, base, frames, failure⟩ := engine
  obtain ⟨hfailure, frame, hframes, hpast⟩ := h
  obtain rfl : failure = none := hfailure
  obtain rfl : frames = [frame] := hframes
  rw [step_of_exhausted frame [] hpast]
  exact ⟨rfl, rfl⟩

theorem over_of_atEnd {k count : Nat} (h : (engine.steps k).AtEnd) (hk : k < count) :
    (engine.steps count).frames = [] ∧ (engine.steps count).failure = none := by
  obtain ⟨rest, rfl⟩ := Nat.exists_eq_add_of_lt hk
  have hover := h.step
  have hdone : (engine.steps (k + 1)).done = true := by
    rw [steps_succ, done, hover.1]
    rfl
  rw [Nat.add_right_comm, steps_add, steps_of_done hdone, steps_succ]
  exact hover

/-- Bytes behind the image change no step that neither ends its stream nor lacks bytes. -/
theorem step_append (hruns : engine.Runs (.image front)) (hbase : engine.base = 0)
    (hinside : ¬ engine.AtEnd)
    (hwhole : ∀ failure, engine.step.failure = some failure → ¬ failure.CutsOff) :
    (engine.recode (.image (front ++ back))).step = engine.step.recode (.image (front ++ back)) := by
  match engine with
  | ⟨_, _, [], none⟩ => rfl
  | ⟨_, _, [], some _⟩ => rfl
  | ⟨_, _, [_], some _⟩ => rfl
  | ⟨_, _, _ :: _ :: _, some _⟩ => rfl
  | ⟨session, base, [frame], none⟩ =>
    obtain ⟨_, offset⟩ := frame
    obtain ⟨rfl, -⟩ := Frame.mk.inj (List.cons.inj (congrArg frames hruns)).1
    obtain rfl : base = 0 := hbase
    have hs : offset < front.size := Nat.lt_of_not_le fun hpast => hinside ⟨rfl, _, rfl, hpast⟩
    have hmore : offset < (front ++ back).size := by
      rw [Array.size_append]
      omega
    refine step_lone (Or.inr ⟨hs, hmore⟩) (Code.executeAt_append back hs fun fault after hx => ?_)
    have hkept : ¬ (⟨fault, offset, 0⟩ : Failure).CutsOff := by
      apply hwhole
      rw [step_of_error ⟨.image front, offset⟩ [] hs hx]
      rfl
    simpa [Failure.CutsOff] using hkept
  | ⟨session, base, frame :: next :: outer, none⟩ => exact step_nested _ session base frame next outer

/-- Both runs go together until the image alone has come to its end or lacks bytes. -/
theorem steps_append (session : Session) (front back : Bytes) (count : Nat) :
    (∃ k < count, ((ofImage session front).steps k).AtEnd) ∨
    (∃ failure, ((ofImage session front).steps count).failure = some failure ∧ failure.CutsOff) ∨
    (ofImage session (front ++ back)).steps count =
      ((ofImage session front).steps count).recode (.image (front ++ back)) := by
  have hruns : (ofImage session front).Runs (.image front) := rfl
  induction count with
  | zero => exact Or.inr (Or.inr rfl)
  | succ count ih =>
    rcases ih with ⟨k, hk, hend⟩ | ⟨failure, hfailure, hcut⟩ | hsame
    · exact Or.inl ⟨k, Nat.lt_succ_of_lt hk, hend⟩
    · have hdone : ((ofImage session front).steps count).done = true := by simp [done, hfailure]
      rw [steps_succ, step_of_done hdone]
      exact Or.inr (Or.inl ⟨failure, hfailure, hcut⟩)
    · by_cases hend : ((ofImage session front).steps count).AtEnd
      · exact Or.inl ⟨count, Nat.lt_succ_self count, hend⟩
      by_cases hcut : ∃ failure, ((ofImage session front).steps (count + 1)).failure = some failure ∧
          failure.CutsOff
      · exact Or.inr (Or.inl hcut)
      refine Or.inr (Or.inr ?_)
      rw [steps_succ] at hcut
      rw [steps_succ, hsame, steps_succ]
      exact step_append (hruns.steps count) (steps_base count _) hend
        fun failure hfailure hcuts => hcut ⟨failure, hfailure, hcuts⟩

/-- The run of the image comes to `offset` at its outermost level, with the session `now`. -/
def Reaches (session : Session) (image : Bytes) (offset : Nat) (now : Session) : Prop :=
  ∃ count, (ofImage session image).steps count = ofStream now 0 (.image image) offset

/-- The run of the image ends as `final` with a statement of it that ends its stream. -/
def StopsAs (session : Session) (image : Bytes) (final : Engine) : Prop :=
  ∃ offset now after, Reaches session image offset now ∧ offset < image.size ∧
    (Code.image image).executeAt offset 0 now = .ok .leave after ∧
    final = ⟨after.note (.halted 0 offset), 0, [], none⟩

/-- The run of the image ends with the session `now` because `offset` is behind its last byte. -/
def RunsOut (session : Session) (image : Bytes) (offset : Nat) (now : Session) : Prop :=
  Reaches session image offset now ∧ image.size ≤ offset

theorem Reaches.append {offset : Nat} {now : Session} (h : Reaches session front offset now)
    (back : Bytes) : Reaches session (front ++ back) offset now := by
  obtain ⟨count, hcount⟩ := h
  refine ⟨count, ?_⟩
  rcases steps_append session front back count with ⟨k, hk, hend⟩ | ⟨failure, hfailure, -⟩ | hsame
  · have hover := (over_of_atEnd hend hk).1
    rw [hcount] at hover
    cases hover
  · rw [hcount] at hfailure
    cases hfailure
  · rw [hsame, hcount]
    rfl

theorem StopsAs.settles {final : Engine} (h : StopsAs session front final) :
    (ofImage session front).Settles final := by
  obtain ⟨offset, now, after, ⟨count, hcount⟩, hs, hx, rfl⟩ := h
  refine ⟨count + 1, ?_, rfl⟩
  rw [steps_succ, hcount]
  exact step_of_leave ⟨.image front, offset⟩ [] hs hx

theorem StopsAs.append {final : Engine} (h : StopsAs session front final) (back : Bytes) :
    StopsAs session (front ++ back) final := by
  obtain ⟨offset, now, after, hreaches, hs, hx, hfinal⟩ := h
  have hmore : offset < (front ++ back).size := by
    rw [Array.size_append]
    omega
  have hsame : (Code.image (front ++ back)).executeAt offset 0 now = .ok .leave after :=
    (Code.executeAt_append back hs fun _ _ herror => nomatch hx.symm.trans herror).trans hx
  exact ⟨offset, now, after, hreaches.append back, hmore, hsame, hfinal⟩

/-- A run fails alike with more bytes behind the image, unless it fails for the lack of them. -/
theorem settles_append_of_failure {final : Engine} {failure : Failure}
    (h : (ofImage session front).Settles final) (hfailure : final.failure = some failure)
    (hwhole : ¬ failure.CutsOff) (back : Bytes) :
    (ofImage session (front ++ back)).Settles (final.recode (.image (front ++ back))) := by
  obtain ⟨count, rfl, hdone⟩ := h
  refine ⟨count, ?_, by rw [done_recode]; exact hdone⟩
  rcases steps_append session front back count with ⟨k, hk, hend⟩ | ⟨other, hother, hcut⟩ | hsame
  · have hover := (over_of_atEnd hend hk).2
    rw [hfailure] at hover
    cases hover
  · rw [hfailure] at hother
    obtain rfl := Option.some.inj hother
    exact absurd hcut hwhole
  · exact hsame

/-- A run that is over without a failure has stopped or run out. -/
theorem stopsAs_or_runsOut {count : Nat}
    (hframes : ((ofImage session front).steps count).frames = [])
    (hfailure : ((ofImage session front).steps count).failure = none) :
    StopsAs session front ((ofImage session front).steps count) ∨
      ∃ offset now, RunsOut session front offset now := by
  have hruns : (ofImage session front).Runs (.image front) := rfl
  induction count with
  | zero => cases hframes
  | succ count ih =>
    have hcode := hruns.steps count
    have hbase := steps_base count (ofImage session front)
    rw [steps_succ] at hframes hfailure ⊢
    match hnow : (ofImage session front).steps count with
    | ⟨_, _, [], none⟩ =>
      rw [hnow] at ih
      exact ih rfl rfl
    | ⟨_, _, [], some _⟩ =>
      rw [hnow] at hfailure
      cases hfailure
    | ⟨_, _, _ :: _, some _⟩ =>
      rw [hnow] at hfailure
      cases hfailure
    | ⟨now, base, ⟨code, offset⟩ :: outer, none⟩ =>
      rw [hnow] at hcode hbase hframes
      obtain rfl : base = 0 := hbase
      revert hframes
      apply step_cases ⟨code, offset⟩ outer (motive := fun next => next.frames = [] →
        StopsAs session front next ∨ ∃ offset now, RunsOut session front offset now)
      case fails => exact fun _ _ _ _ hf => nomatch hf
      case goes => exact fun _ _ _ _ hf => nomatch hf
      case calls => exact fun _ _ _ _ _ _ hf => nomatch hf
      case leaves =>
        intro after hs hx hf
        obtain rfl : outer = [] := hf
        obtain ⟨rfl, -⟩ := Frame.mk.inj (List.cons.inj (congrArg frames hcode)).1
        exact Or.inl ⟨offset, now, after, ⟨count, hnow⟩, hs, hx, rfl⟩
      case ends =>
        intro hs hf
        obtain rfl : outer = [] := hf
        obtain ⟨rfl, -⟩ := Frame.mk.inj (List.cons.inj (congrArg frames hcode)).1
        exact Or.inr ⟨offset, now, ⟨count, hnow⟩, hs⟩

/--
Images with the same whole statement at an offset do the same there, and if it is skipped, its header is all
that they need to share. So with more bytes behind an image its run stops as before, or fails as before
unless the end of the image cut a statement off, or else comes to the offset where it ran out before, with
the same session. What the flush after the run answers is the same wherever the run has stopped or failed.
-/
theorem run_unchanged_by_bytes_behind (session : Session) :
    (∀ (front other : Bytes) (offset : Nat) (instruction : Instruction) (condition : Condition),
      instruction.LiesAt condition front offset →
      offset + instruction.length ≤ other.size →
      other.window offset (instruction.reads condition session.machine.registers.compare) =
        front.window offset (instruction.reads condition session.machine.registers.compare) →
      ofStatement session (.image other) offset = ofStatement session (.image front) offset) ∧
    ∀ front back,
      (∀ final, StopsAs session front final →
        (ofImage session front).Settles final ∧ (ofImage session (front ++ back)).Settles final) ∧
      (∀ final failure, (ofImage session front).Settles final → final.failure = some failure →
        ¬ failure.CutsOff → ∃ other, (ofImage session (front ++ back)).Settles other ∧
          other.result = final.result ∧ other.session = final.session) ∧
      (∀ offset now, RunsOut session front offset now → Reaches session (front ++ back) offset now) ∧
      ∀ final, (ofImage session front).Settles final → final.failure = none →
        StopsAs session front final ∨ ∃ offset now, RunsOut session front offset now := by
  refine ⟨fun front other offset instruction condition hlies inside agree => ?_, fun front back => ?_⟩
  · rw [ofStatement, ofStatement, Code.executeAt_of_agree hlies inside agree]
  refine ⟨fun final h => ⟨h.settles, (h.append back).settles⟩, fun final failure h hfailure hwhole => ?_,
    fun offset now h => h.1.append back, fun final h hfailure => ?_⟩
  · exact ⟨_, settles_append_of_failure h hfailure hwhole back, rfl, rfl⟩
  · obtain ⟨count, rfl, hdone⟩ := h
    have hframes : ((ofImage session front).steps count).frames = [] := by
      rw [done, hfailure] at hdone
      simpa using hdone
    exact stopsAs_or_runsOut hframes hfailure

/-- A machine with one register and a console that takes bytes but cannot be flushed. -/
def unflushable : Session :=
  .ofMachine {
    registers := .zeros 1
    ram := .zeros .ram 0
    disk := .ofBytes "" #[]
    console := { Console.ofInput [] with flushError := some .brokenPipe }
    maxDepth := 0 }

/-- Sets the register to one. -/
def setsOne : Bytes :=
  #[0x01, 0, 3, 0, 0, 0, 1, 0, 0, 0, 0, 0]

/-- Skips a statement of no valid mode if the compare flag is zero, sends a byte and stops. -/
def sendsAndStops : Bytes :=
  #[0x08, 2, 9, 9, 9, 9, 9, 0x08, 0, 3, 0, 0, 4, 1, 0x11, 0]

theorem run_unchanged_by_bytes_behind_sendsAndStops :
    StopsAs unflushable sendsAndStops ((ofImage unflushable sendsAndStops).steps 3) ∧
    (ofImage unflushable (sendsAndStops ++ setsOne)).Settles
      ((ofImage unflushable sendsAndStops).steps 3) ∧
    RunsOut unflushable setsOne 12 ((ofImage unflushable setsOne).steps 1).session ∧
    Reaches unflushable (setsOne ++ sendsAndStops) 12 ((ofImage unflushable setsOne).steps 1).session ∧
    ofStatement unflushable (.image #[0x08, 2, 0, 0, 0, 0, 0]) 0 =
      ofStatement unflushable (.image sendsAndStops) 0 := by
  have hstops : StopsAs unflushable sendsAndStops ((ofImage unflushable sendsAndStops).steps 3) :=
    ⟨14, ((ofImage unflushable sendsAndStops).steps 2).session,
      ((ofImage unflushable sendsAndStops).steps 2).session.note
        (.executed 0 14 ⟨.stop, .always, [], rfl⟩),
      ⟨2, by decide +kernel⟩, by decide, by rfl, by decide +kernel⟩
  have hout : RunsOut unflushable setsOne 12 ((ofImage unflushable setsOne).steps 1).session :=
    ⟨⟨1, by decide +kernel⟩, by decide⟩
  have hlies : Instruction.send.LiesAt .notEqual sendsAndStops 0 := ⟨by decide +kernel, by decide⟩
  have hrun := run_unchanged_by_bytes_behind unflushable
  have happend := hrun.2 sendsAndStops setsOne
  have hreach := (hrun.2 setsOne sendsAndStops).2.2.1 _ _ hout
  have hsame := hrun.1 sendsAndStops #[0x08, 2, 0, 0, 0, 0, 0] 0 _ _ hlies (by decide) (by decide +kernel)
  exact ⟨hstops, (happend.1 _ hstops).2, hout, hreach, hsame⟩

/--
A run that has run out answers with the failure of the flush, if that fails. This is an error that does not
come from the lack of bytes, and still more bytes behind the image go on to be run.
-/
theorem flush_failure_does_not_end_run :
    (ofImage unflushable setsOne).Settles ((ofImage unflushable setsOne).steps 2) ∧
    ((ofImage unflushable setsOne).steps 2).result = .error ⟨.console .brokenPipe, 0, 0⟩ ∧
    ¬ (⟨.console .brokenPipe, 0, 0⟩ : Failure).CutsOff ∧
    ∀ other, (ofImage unflushable (setsOne ++ #[0x01, 0, 3, 0, 0, 0, 2, 0, 0, 0, 0, 0])).Settles other →
      other.session.machine ≠ ((ofImage unflushable setsOne).steps 2).session.machine := by
  refine ⟨⟨2, rfl, by decide +kernel⟩, by decide +kernel, by simp [Failure.CutsOff, Fault.isTruncation],
    fun other h => ?_⟩
  obtain rfl := h.unique ⟨3, rfl, by decide +kernel⟩
  decide +kernel

end Engine
end Microcomputer
