import Microcomputer.Proofs.Layout
import Microcomputer.Proofs.RamStream
import Microcomputer.Proofs.StackMachine

/-!
# The bytes of a stream

As long as the range of a stream lies inside RAM its bytes can be read, so that a fetch fails only where
the stream has too few of them. A range lies inside when its stream begins, and RAM keeps its size, so
that this holds of every stream of a run.
-/
namespace Microcomputer

open Execution

namespace Code

variable {code : Code} {machine : Machine} {offset length : Nat}

/-- All bytes of the stream are there; those of an image always are. -/
def Inside (ram : Memory) : Code → Prop
  | image _ => True
  | .ram start length => start + length ≤ ram.size

/-- The bytes that the stream has at present. -/
def contents (machine : Machine) : Code → Bytes
  | image bytes => bytes
  | ram start length => machine.range start length

theorem size_contents (inside : code.Inside machine.ram) : (code.contents machine).size = code.size := by
  cases code with
  | image bytes => rfl
  | ram start length => exact Machine.size_range inside

theorem fetch_of_short {ram : Memory} (h : code.size - offset < length) :
    code.fetch ram offset length = .error (.truncatedStatement length (code.size - offset)) :=
  if_pos h

/-- The RAM of a stream inside it can be read. -/
theorem fetch_of_enough (inside : code.Inside machine.ram) (hlength : 0 < length)
    (h : offset + length ≤ code.size) :
    code.fetch machine.ram offset length = .ok ((code.contents machine).window offset length) := by
  cases code with
  | image bytes => exact fetch_image h
  | ram start stop =>
    rw [fetch_ram inside hlength, fetch_image]
    · rfl
    · rw [Machine.size_range inside]
      exact h

section Header

variable (inside : code.Inside machine.ram) (h : offset + Statement.headerSize ≤ code.size)

include inside h

theorem upcoming_of_invalid {fault : Fault}
    (header : Statement.decodeHeader ((code.contents machine).window offset Statement.headerSize) =
      .error fault) : code.upcoming offset machine = .error fault :=
  bind_eq_error.mpr (Or.inr ⟨_, fetch_of_enough inside (by decide) h, bind_eq_error.mpr (Or.inl header)⟩)

variable {instruction : Instruction} {condition : Condition}
  (header : Statement.decodeHeader ((code.contents machine).window offset Statement.headerSize) =
    .ok (instruction, condition))

include header

theorem upcoming_of_cut (cut : code.size - offset < instruction.length) :
    code.upcoming offset machine =
      .error (.truncatedStatement instruction.length (code.size - offset)) := by
  refine (bind_of_ok (fetch_of_enough inside (by decide) h)).trans ((bind_of_ok header).trans ?_)
  exact bind_eq_error.mpr (Or.inl (fetch_of_short cut))

theorem upcoming_of_whole (whole : offset + instruction.length ≤ code.size) :
    code.upcoming offset machine =
      if condition.holds machine.registers.compare then
        .execute <$> Statement.decodeBody instruction condition
          ((code.contents machine).window offset instruction.length)
      else .ok (.skip instruction condition) := by
  have hlength : 0 < instruction.length :=
    Nat.lt_of_lt_of_le (by decide) instruction.headerSize_le_length
  refine (bind_of_ok (fetch_of_enough inside (by decide) h)).trans ((bind_of_ok header).trans ?_)
  refine (bind_of_ok (fetch_of_enough inside hlength whole)).trans ?_
  split <;> rfl

end Header

theorem fetch_eq_error (inside : code.Inside machine.ram) (hlength : 0 < length) {fault : Fault}
    (h : code.fetch machine.ram offset length = .error fault) :
    fault = .truncatedStatement length (code.size - offset) := by
  by_cases hshort : code.size - offset < length
  · rw [fetch_of_short hshort] at h
    exact (Except.error.inj h).symm
  · rw [fetch_of_enough inside hlength (by omega)] at h
    cases h

end Code

/-- A nested stream starts inside RAM and below the limit on the depth. -/
theorem Execution.nestedStart_eq_ok {machine : Machine} {offset length : Int32} {depth start : Nat}
    (h : nestedStart machine offset length depth = .ok start) :
    depth < machine.maxDepth ∧ start + length.toInt.toNat ≤ machine.ram.size := by
  unfold nestedStart at h
  split at h
  · cases h
  split at h
  · cases h
  split at h
  · cases h
  · exact ⟨by omega, (Memory.locate_eq_ok_iff.mp h).2⟩

/-- Where a statement comes through, the stream had not ended. -/
theorem Code.lt_size_of_executeAt {code : Code} {offset depth : Nat} {session after : Session}
    {transfer : Transfer} (h : code.executeAt offset depth session = .ok transfer after) :
    offset < code.size := by
  by_contra hpast
  have hshort : code.size - offset < Statement.headerSize := by
    unfold Statement.headerSize
    omega
  have hfault : code.upcoming offset session.machine =
      .error (.truncatedStatement Statement.headerSize (code.size - offset)) :=
    bind_eq_error.mpr (Or.inl (fetch_of_short hshort))
  rw [executeAt_of_error hfault] at h
  cases h

/-- The range of a nested stream lies inside RAM when it begins, and it is not too deep. -/
theorem Code.range_of_call {code : Code} {offset depth start length resume : Nat}
    {session after : Session}
    (h : code.executeAt offset depth session = .ok (.call start length resume) after) :
    depth < session.machine.maxDepth ∧ start + length ≤ session.machine.ram.size := by
  have hlt : (Frame.mk code offset).offset < (Frame.mk code offset).code.size := lt_size_of_executeAt h
  obtain ⟨statement, first, second, calls⟩ := Frame.calls_of_call hlt h
  by_cases asked : second = 0
  · subst asked
    cases h.symm.trans calls.executeAt_zero
  cases hstart : nestedStart session.machine first second depth with
  | error fault => cases h.symm.trans (calls.executeAt_of_error asked hstart)
  | ok found =>
    cases h.symm.trans (calls.executeAt_of_ok asked hstart)
    exact nestedStart_eq_ok hstart

theorem Code.Inside.of_size_eq {code : Code} {before after : Memory} (h : code.Inside before)
    (hsize : after.size = before.size) : code.Inside after := by
  cases code with
  | image bytes => exact h
  | ram start length =>
    have hrange : start + length ≤ before.size := h
    show start + length ≤ after.size
    rw [hsize]
    exact hrange

namespace Engine

/-- The streams after a step are those of before, but for one that begins inside RAM. -/
theorem codes_step {engine : Engine} {P : Code → Prop}
    (hrange : ∀ start length, start + length ≤ engine.session.machine.ram.size → P (.ram start length))
    (h : ∀ frame ∈ engine.frames, P frame.code) : ∀ frame ∈ engine.step.frames, P frame.code := by
  match engine with
  | ⟨_, _, [], none⟩ => exact h
  | ⟨_, _, [], some _⟩ => exact h
  | ⟨_, _, _ :: _, some _⟩ => exact h
  | ⟨session, base, frame :: outer, none⟩ =>
    obtain ⟨htop, houter⟩ := List.forall_mem_cons.mp h
    apply step_cases frame outer (motive := fun next => ∀ frame ∈ next.frames, P frame.code)
    case fails => exact fun _ _ _ _ => h
    case goes => exact fun _ _ _ _ => List.forall_mem_cons.mpr ⟨htop, houter⟩
    case calls =>
      intro start length resume after _ hx
      have hcalled : P (.ram start length) := hrange start length (Code.range_of_call hx).2
      exact List.forall_mem_cons.mpr ⟨hcalled, List.forall_mem_cons.mpr ⟨htop, houter⟩⟩
    case leaves => exact fun _ _ _ => houter
    case ends => exact fun _ => houter

/-- The same for the streams that a single statement begins. -/
theorem codes_ofStatement {session : Session} {code : Code} {offset : Nat} {P : Code → Prop}
    (hrange : ∀ start length, start + length ≤ session.machine.ram.size → P (.ram start length)) :
    ∀ frame ∈ (ofStatement session code offset).1.frames, P frame.code := by
  intro frame hframe
  rw [ofStatement] at hframe
  cases hx : code.executeAt offset 0 session with
  | error fault after =>
    rw [hx] at hframe
    cases hframe
  | ok transfer after =>
    rw [hx] at hframe
    cases transfer with
    | goto next => cases hframe
    | leave => cases hframe
    | call start length resume =>
      obtain rfl := List.mem_singleton.mp hframe
      exact hrange start length (Code.range_of_call hx).2

end Engine
end Microcomputer
