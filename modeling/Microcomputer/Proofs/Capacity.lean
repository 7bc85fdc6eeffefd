import Microcomputer.Proofs.Widening

/-!
# Larger machines

A run that never lacks a register, a byte of memory or a level of nesting goes the same way on a machine
that has more of them, and what that machine has on top stays as it was.
-/
namespace Microcomputer

open Execution

theorem Statement.perform_scales (statement : Statement) (next depth : Nat) (spare : Spare)
    (session : Session) : Scales spare (statement.perform next depth) session := by
  cases statement using Statement.byInstruction with
  | move condition source target =>
    exact scales_load.bind fun _ _ _ => scales_store.bind fun _ _ _ => scales_pure
  | compute operation condition left right target =>
    refine scales_load.bind fun a _ _ => scales_load.bind fun b _ _ => ?_
    refine (scales_observe stands_refl).bind fun result _ _ => ?_
    exact scales_store.bind fun _ _ _ => scales_note.bind fun _ _ _ => scales_pure
  | receive condition target =>
    exact scales_receive.bind fun _ _ _ => scales_store.bind fun _ _ _ => scales_pure
  | send condition source =>
    exact scales_load.bind fun _ _ _ => scales_send.bind fun _ _ _ => scales_pure
  | compare condition left right =>
    refine scales_load.bind fun a _ _ => scales_load.bind fun b _ _ => ?_
    refine Scales.bind (scales_update ?_) fun _ _ _ => scales_note.bind fun _ _ _ => scales_pure
    rfl
  | branch condition target =>
    refine scales_load.bind fun offset _ _ => ?_
    by_cases h : offset < 0
    · simp only [h, ↓reduceIte]
      exact scales_throw
    · simp only [h, ↓reduceIte]
      exact scales_pure
  | diskRead condition offset target =>
    refine scales_load.bind fun address after _ => ?_
    refine (scales_observe (after.machine.disk.buffer.stands_readNumber spare.disk address)).bind
      fun _ _ _ => ?_
    exact scales_store.bind fun _ _ _ => scales_pure
  | diskWrite condition source offset =>
    refine scales_load.bind fun _ _ _ => scales_load.bind fun _ _ _ => ?_
    exact scales_writeDisk.bind fun _ _ _ => scales_pure
  | execute condition offset length =>
    exact scales_load.bind fun _ _ _ => scales_load.bind fun _ _ _ => scales_enter
  | stop condition => exact scales_pure
  | diskLoad condition source target length =>
    refine scales_load.bind fun _ _ _ => scales_load.bind fun _ _ _ => scales_load.bind fun _ _ _ => ?_
    exact scales_copyFromDisk.bind fun _ _ _ => scales_pure

namespace Code

variable (code : Code) (offset depth : Nat) (spare : Spare)

theorem stands_fetch (ram : Memory) (extra : Bytes) (length : Nat) :
    Stands (code.fetch ram offset length) (code.fetch (ram.widen extra) offset length) := by
  refine stands_ite Iff.rfl stands_refl ?_
  cases code with
  | image bytes => exact stands_refl
  | ram start size => exact ram.stands_load extra _ _

theorem stands_upcoming (machine : Machine) :
    Stands (code.upcoming offset machine) (code.upcoming offset (machine.widen spare)) := by
  refine (code.stands_fetch offset machine.ram spare.ram _).bind fun header _ => ?_
  refine stands_refl.bind fun parts _ => ?_
  exact (code.stands_fetch offset machine.ram spare.ram _).bind fun bytes _ => stands_refl

/-- A statement does on a larger machine what it does on a smaller one, if this one is large enough. -/
theorem executeAt_scales (session : Session) : Scales spare (code.executeAt offset depth) session := by
  refine (scales_observe (code.stands_upcoming offset spare session.machine)).bind fun upcoming _ _ => ?_
  cases upcoming with
  | execute statement => exact scales_note.bind fun _ _ _ => statement.perform_scales _ _ _ _
  | skip instruction condition =>
    exact (scales_observe stands_refl).bind fun _ _ _ => scales_note.bind fun _ _ _ => scales_pure

end Code

namespace Engine

variable {spare : Spare}

/-- The engine has not failed for want of capacity. -/
def HadRoom (engine : Engine) : Prop :=
  ∀ failure, engine.failure = some failure → failure.fault.isCapacity = false

theorem step_widen {engine : Engine} (h : engine.step.HadRoom) :
    (engine.widen spare).step = engine.step.widen spare := by
  match engine with
  | ⟨_, _, [], none⟩ => rfl
  | ⟨_, _, [], some _⟩ => rfl
  | ⟨_, _, _ :: _, some _⟩ => rfl
  | ⟨session, base, frame :: outer, none⟩ =>
    have hscales := frame.code.executeAt_scales frame.offset (base + outer.length) spare session
    revert h
    apply step_cases frame outer (motive := fun next => next.HadRoom →
      step ⟨session.widen spare, base, frame :: outer, none⟩ = next.widen spare)
    case fails =>
      intro fault after hs hx hroom
      exact step_of_error _ _ hs (hscales.of_error hx (hroom _ rfl))
    case goes =>
      intro next after hs hx _
      exact step_of_goto _ _ hs (hscales.of_ok hx)
    case calls =>
      intro start length resume after hs hx _
      exact step_of_call _ _ hs (hscales.of_ok hx)
    case leaves =>
      intro after hs hx _
      exact step_of_leave _ _ hs (hscales.of_ok hx)
    case ends => exact fun hs _ => step_of_exhausted _ _ hs

/-- What failed for want of capacity stays so. -/
theorem hadRoom_of_step {engine : Engine} (h : engine.step.HadRoom) : engine.HadRoom := by
  intro failure hfailure
  have hdone : engine.done = true := by simp [done, hfailure]
  rw [step_of_done hdone] at h
  exact h failure hfailure

theorem steps_widen {engine : Engine} {count : Nat} (h : (engine.steps count).HadRoom) :
    (engine.widen spare).steps count = (engine.steps count).widen spare := by
  induction count with
  | zero => rfl
  | succ count ih =>
    rw [steps_succ] at h ⊢
    rw [ih (hadRoom_of_step h), step_widen h, steps_succ]

theorem result_widen (engine : Engine) : (engine.widen spare).result = engine.result := rfl

theorem hadRoom_of_result {engine : Engine}
    (h : ∀ failure, engine.result = .error failure → failure.fault.isCapacity = false) :
    engine.HadRoom := by
  intro failure hfailure
  refine h failure ?_
  rw [result, hfailure]

end Engine

theorem exists_append_of_prefix {α : Type} {small large : Array α} (h : small.toList <+: large.toList) :
    ∃ extra : Array α, large = small ++ extra := by
  obtain ⟨rest, hrest⟩ := h
  refine ⟨rest.toArray, Array.ext' ?_⟩
  rw [Array.toList_append, hrest]

/-- The larger memory begins with all of the smaller one. -/
structure Memory.Extends (large small : Memory) : Prop where
  region : large.region = small.region
  bytes : small.bytes.toList <+: large.bytes.toList

/-- The larger machine has all that the smaller one has, and may have more of it. -/
structure Machine.Extends (large small : Machine) : Prop where
  registers : small.registers.values.toList <+: large.registers.values.toList
  compare : large.registers.compare = small.registers.compare
  ram : large.ram.Extends small.ram
  disk : large.disk.buffer.Extends small.disk.buffer
  console : large.console = small.console
  maxDepth : small.maxDepth ≤ large.maxDepth

/-- The registers and bytes that a machine of the smaller shape does not have are the same before and after. -/
structure Machine.SameBeyond (small : Shape) (before after : Machine) : Prop where
  registers : after.registers.values.toList.drop small.registers =
    before.registers.values.toList.drop small.registers
  ram : after.ram.bytes.toList.drop small.ram = before.ram.bytes.toList.drop small.ram
  disk : after.disk.buffer.bytes.toList.drop small.disk = before.disk.buffer.bytes.toList.drop small.disk

theorem Memory.widen_extends (memory : Memory) (extra : Bytes) : (memory.widen extra).Extends memory where
  region := rfl
  bytes := by
    rw [widen, Array.toList_append]
    exact List.prefix_append ..

theorem Memory.Extends.exists_widen {large small : Memory} (h : large.Extends small) :
    ∃ extra, large = small.widen extra := by
  obtain ⟨extra, hbytes⟩ := exists_append_of_prefix h.bytes
  refine ⟨extra, ?_⟩
  rw [widen, ← h.region, ← hbytes]

namespace Machine

theorem widen_extends (machine : Machine) (spare : Spare) : (machine.widen spare).Extends machine where
  registers := by
    rw [widen, Registers.widen, Array.toList_append]
    exact List.prefix_append ..
  compare := rfl
  ram := machine.ram.widen_extends spare.ram
  disk := machine.disk.buffer.widen_extends spare.disk
  console := rfl
  maxDepth := Nat.le_add_right ..

theorem Extends.exists_widen {large small : Machine} (h : large.Extends small) :
    ∃ spare, large = small.widen spare := by
  obtain ⟨registers, hregisters⟩ := exists_append_of_prefix h.registers
  obtain ⟨ram, hram⟩ := h.ram.exists_widen
  obtain ⟨disk, hdisk⟩ := h.disk.exists_widen
  obtain ⟨depth, hdepth⟩ := Nat.exists_eq_add_of_le h.maxDepth
  refine ⟨⟨registers, ram, disk, large.disk.path, depth⟩, ?_⟩
  rw [widen, Registers.widen, ← hregisters, ← h.compare, ← hram, ← hdisk, ← h.console, ← hdepth]

/-- Machines of one shape that are widened alike are the same beyond that shape. -/
theorem sameBeyond_widen {before after : Machine} (h : after.shape = before.shape) (spare : Spare) :
    SameBeyond before.shape (before.widen spare) (after.widen spare) := by
  have hregisters : after.registers.values.size = before.registers.values.size := congrArg Shape.registers h
  have hram : after.ram.bytes.size = before.ram.bytes.size := congrArg Shape.ram h
  have hdisk : after.disk.buffer.bytes.size = before.disk.buffer.bytes.size := congrArg Shape.disk h
  have hdrop {α : Type} {small large : Array α} (extra : Array α) (hsize : large.size = small.size) :
      (large ++ extra).toList.drop small.size = (small ++ extra).toList.drop small.size := by
    rw [Array.toList_append, Array.toList_append, List.drop_left' hsize,
      List.drop_left' Array.length_toList]
  exact ⟨hdrop spare.registers hregisters, hdrop spare.ram hram, hdrop spare.disk hdisk⟩

end Machine

/--
What an image does on a machine that does not turn out too small, it does on every larger one: the run ends
with the same result, the same console and log, and the same compare flag, registers, RAM and disk as far
as the smaller machine has them, and whatever the larger machine has beyond stays as it was.
-/
theorem Engine.run_on_larger_machine {small large : Machine} (larger : large.Extends small)
    {image : Bytes} {final : Engine} (settles : (ofImage (.ofMachine small) image).Settles final)
    (roomy : ∀ failure, final.result = .error failure → failure.fault.isCapacity = false) :
    ∃ other, (ofImage (.ofMachine large) image).Settles other ∧ other.result = final.result ∧
      other.session.events = final.session.events ∧
      other.session.machine.Extends final.session.machine ∧
      Machine.SameBeyond small.shape large other.session.machine := by
  obtain ⟨spare, rfl⟩ := larger.exists_widen
  obtain ⟨count, rfl, hdone⟩ := settles
  have hsteps : (ofImage (.ofMachine (small.widen spare)) image).steps count =
      ((ofImage (.ofMachine small) image).steps count).widen spare := steps_widen (hadRoom_of_result roomy)
  have hshape := steps_shape count (ofImage (.ofMachine small) image)
  refine ⟨_, ⟨count, hsteps, hdone⟩, result_widen _, rfl, Machine.widen_extends _ _, ?_⟩
  exact Machine.sameBeyond_widen hshape spare

/-- A machine that has room for a stream of one statement and nothing else. -/
def cramped : Machine where
  registers := .zeros 1
  ram := ⟨.ram, #[0, 0, 0, 0, 0x11, 0]⟩
  disk := .ofBytes "" #[1, 2, 3, 4]
  console := .ofInput [65]
  maxDepth := 1

/-- The same machine with more of everything, and that not zero. -/
def ample : Machine :=
  cramped.widen ⟨#[5, 6], #[9, 9, 9, 9, 9], #[8, 8], "disk", 3⟩

/-- Receives a byte into a register, RAM and the disk, runs the stream and sends the byte. -/
def copies : Bytes :=
  #[0x07, 0, 0, 0, 0, 0, 0, 0x01, 0, 0, 0, 0, 0, 0, 2, 0, 0, 0, 0, 0x0F, 0, 0, 0, 0, 0, 0, 3, 0, 0, 0, 0,
    0x10, 0, 3, 0, 0, 0, 4, 3, 0, 0, 0, 2, 0x08, 0, 2, 0, 0, 0, 0, 0x11, 0]

theorem Engine.run_on_larger_machine_copies :
    ample.Extends cramped ∧
    ∃ final, (ofImage (.ofMachine cramped) copies).Settles final ∧ final.result = .ok () ∧
      final.session.machine.ram.bytes = #[0, 0, 4, 1, 0x11, 0] ∧
      ∃ other, (ofImage (.ofMachine ample) copies).Settles other ∧ other.result = final.result ∧
        other.session.events = final.session.events ∧
        other.session.machine.Extends final.session.machine ∧
        Machine.SameBeyond cramped.shape ample other.session.machine := by
  have hlarger : ample.Extends cramped := cramped.widen_extends _
  have hsettles : (ofImage (.ofMachine cramped) copies).Settles
      ((ofImage (.ofMachine cramped) copies).steps 7) := ⟨7, rfl, by decide +kernel⟩
  have hresult : ((ofImage (.ofMachine cramped) copies).steps 7).result = .ok () := by decide +kernel
  have hroomy : ∀ failure, ((ofImage (.ofMachine cramped) copies).steps 7).result = .error failure →
      failure.fault.isCapacity = false := by
    rw [hresult]
    exact fun _ hf => nomatch hf
  have hrun := run_on_larger_machine hlarger hsettles hroomy
  exact ⟨hlarger, _, hsettles, hresult, by decide +kernel, hrun⟩

end Microcomputer
