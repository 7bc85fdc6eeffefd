import Microcomputer.Host.Engine
import Microcomputer.Proofs.HostAccess
import Microcomputer.Proofs.StackMachine

/-!
# Runs on a host never trap

A host takes every step as the engine does. What carries this through a run is that no step changes the
size of RAM, so that the range of every nested stream stays inside.
-/
namespace Microcomputer

open Execution

/-- The machine fits into a host. -/
structure Shape.Fits (shape : Shape) : Prop where
  ram : shape.ram < Host.arrayLimit
  disk : shape.disk < Host.arrayLimit
  maxDepth : shape.maxDepth < Host.sizeLimit

namespace Host

variable {α β : Type}

/-- The same result, for a host. -/
def liftResult : EStateM.Result Fault Session α → EStateM.Result Halt Session α
  | .ok value session => .ok value session
  | .error fault session => .error (.fault fault) session

/-- On a machine that fits, the host does what the machine defines, and keeps its shape. -/
structure Carries (hosted : Hosted α) (execution : Execution α) : Prop where
  same : ∀ session, session.machine.shape.Fits → hosted session = liftResult (execution session)
  keeps : Keeps Machine.shape execution

section Rules

section Observe

variable {look : Machine → Except Halt β} {next : β → Hosted α} {session : Session}

theorem observe_bind_ok {value : β} (h : look session.machine = .ok value) :
    (Hosted.observe look >>= next) session = next value session := by
  have hbind : (Hosted.observe look >>= next) session =
      EStateM.bind (Hosted.observe look) next session := rfl
  rw [hbind, EStateM.bind, Hosted.observe, h]

theorem observe_bind_error {halt : Halt} (h : look session.machine = .error halt) :
    (Hosted.observe look >>= next) session = .error halt session := by
  have hbind : (Hosted.observe look >>= next) session =
      EStateM.bind (Hosted.observe look) next session := rfl
  rw [hbind, EStateM.bind, Hosted.observe, h]

end Observe

theorem Carries.bind {hosted : Hosted β} {execution : Execution β} {hostedNext : β → Hosted α}
    {next : β → Execution α} (h : Carries hosted execution)
    (hnext : ∀ value, Carries (hostedNext value) (next value)) :
    Carries (hosted >>= hostedNext) (execution >>= next) where
  same := by
    intro session fits
    have hbind : (hosted >>= hostedNext) session = EStateM.bind hosted hostedNext session := rfl
    rw [hbind, EStateM.bind, h.same session fits]
    cases hx : execution session with
    | error fault after =>
      rw [bind_error hx]
      rfl
    | ok value after =>
      rw [bind_ok hx]
      have hshape := (h.keeps session).of_ok hx
      exact (hnext value).same after (hshape ▸ fits)
  keeps := h.keeps.bind fun value => (hnext value).keeps

theorem carries_pure {value : α} : Carries (pure value) (pure value) :=
  ⟨fun _ _ => rfl, keeps_pure⟩

theorem carries_note {event : Event} : Carries (Hosted.note event) (note event) :=
  ⟨fun _ _ => rfl, keeps_note⟩

theorem carries_observe {look : Machine → Except Halt α} {plain : Machine → Except Fault α}
    (h : ∀ machine, machine.shape.Fits → look machine = lift (plain machine)) :
    Carries (Hosted.observe look) (observe plain) where
  same := by
    intro session fits
    rw [Hosted.observe, h _ fits, observe]
    cases plain session.machine <;> rfl
  keeps := keeps_observe

theorem carries_look {look : Machine → α} :
    Carries (Hosted.observe fun machine => .ok (look machine))
      (observe fun machine => .ok (look machine)) :=
  carries_observe fun _ _ => rfl

theorem carries_update {change : Machine → Machine}
    (hshape : ∀ machine, (change machine).shape = machine.shape) :
    Carries (Hosted.alter fun machine => .ok (change machine)) (update change) :=
  ⟨fun _ _ => rfl, keeps_update hshape⟩

/-- The host checks and changes the machine at once, where the machine first looks and then changes. -/
theorem carries_alter {change : Machine → Except Halt Machine} {look : Machine → Except Fault β}
    {put : β → Machine → Machine}
    (h : ∀ machine, machine.shape.Fits → change machine = lift do return put (← look machine) machine)
    (hshape : ∀ value machine, (put value machine).shape = machine.shape) :
    Carries (Hosted.alter change) (observe look >>= fun value => update (put value)) where
  same := by
    intro session fits
    rw [Hosted.alter, h _ fits]
    cases hl : look session.machine with
    | error fault =>
      rw [bind_error (observe_error hl)]
      rfl
    | ok value =>
      rw [bind_ok (observe_ok hl)]
      rfl
  keeps := keeps_observe.bind fun value => keeps_update (hshape value)

/-- A slot that is there is looked up without a trap. -/
theorem carries_slot {operands : List Operand} {i : Nat} {operand : Operand}
    {hostedNext : Operand → Hosted α} {execution : Execution α}
    (there : index operands i = .ok operand) (h : Carries (hostedNext operand) execution) :
    Carries (Hosted.compute (index operands i) >>= hostedNext) execution := by
  rw [there]
  exact h

end Rules

section Executions

variable {operand : Operand} {value : Int32}

theorem carries_load : Carries (Hosted.load operand) (load operand) :=
  carries_observe fun machine fits => readOperand_eq fits.ram machine.registers operand

theorem carries_store : Carries (Hosted.store operand value) (store operand value) where
  same := by
    intro session fits
    rw [Hosted.store, Hosted.alter, writeOperand_eq fits.ram, Operand.write]
    cases hplace : operand.destination session.machine.registers session.machine.ram value with
    | error fault =>
      rw [store, bind_error (observe_error hplace)]
      rfl
    | ok place =>
      rw [store, bind_ok (observe_ok hplace)]
      cases place <;> rfl
  keeps := keeps_store (fun _ _ => by simp [Machine.shape]) fun _ _ _ => by simp [Machine.shape]

theorem carries_receive : Carries Hosted.receive receive := by
  refine carries_look.bind fun input => ?_
  cases input with
  | cons byte rest =>
    refine Carries.bind ?_ fun _ => carries_pure
    exact carries_update fun _ => rfl
  | nil =>
    exact (carries_observe fun _ _ => rfl).bind fun _ => carries_note.bind fun _ => carries_pure

theorem carries_send : Carries (Hosted.send value) (send value) := by
  refine carries_alter (fun machine _ => ?_) fun _ _ => rfl
  split <;> rfl

theorem carries_setCompare : Carries (Hosted.setCompare value) (setCompare value) :=
  carries_update fun _ => rfl

theorem carries_readDisk {offset : Int32} : Carries (Hosted.readDisk offset) (readDisk offset) :=
  carries_observe fun _ fits => readNumber_eq fits.disk offset

theorem carries_writeDisk {offset : Int32} :
    Carries (Hosted.writeDisk offset value) (writeDisk offset value) := by
  refine carries_alter (fun machine fits => ?_) fun _ _ => by simp [Machine.shape]
  rw [writeNumber_eq fits.disk, Memory.writeNumber]
  cases machine.disk.buffer.placeNumber offset value <;> rfl

theorem toInt_nonneg {value : Int32} (h : ¬ value < 0) : 0 ≤ value.toInt := by
  rw [Int32.lt_iff_toInt_lt] at h
  exact Int.not_lt.mp h

theorem toNat_lt_arrayLimit (value : Int32) : value.toInt.toNat < arrayLimit := by
  have hlt := value.toInt_lt
  unfold arrayLimit
  omega

theorem carries_copyFromDisk {source destination length : Int32} :
    Carries (Hosted.copyFromDisk source destination length)
      (copyFromDisk source destination length) := by
  have hassoc : copyFromDisk source destination length =
      (observe (fun machine => copySpan machine source destination length) >>= fun span =>
        update fun machine => { machine with ram := machine.ram.put span.1 span.2 }) >>=
          fun _ => note (.copied length destination) := (bind_assoc ..).symm
  rw [hassoc]
  refine Carries.bind ?_ fun _ => carries_note
  refine carries_alter (fun machine fits => ?_) fun _ _ => by simp [Machine.shape]
  unfold copySpan
  by_cases hsource : source < 0 ∨ length < 0
  · rw [if_pos hsource, if_pos hsource]
    rfl
  by_cases hdestination : destination < 0
  · rw [if_neg hsource, if_neg hsource, if_pos hdestination, if_pos hdestination]
    rfl
  rw [if_neg hsource, if_neg hsource, if_neg hdestination, if_neg hdestination]
  have hs := toInt_nonneg (not_or.mp hsource).1
  refine (bind_of_ok (sizeOf_of_nonneg hs)).trans ?_
  refine (bind_of_ok (sizeOf_of_nonneg (toInt_nonneg (not_or.mp hsource).2))).trans ?_
  rw [readArray_eq fits.disk (toNat_lt_arrayLimit source), Int.toNat_of_nonneg hs]
  cases machine.disk.buffer.load source.toInt length.toInt.toNat with
  | error fault => rfl
  | ok data =>
    have hd := toInt_nonneg hdestination
    refine (bind_of_ok (sizeOf_of_nonneg hd)).trans ?_
    rw [writeArray_eq fits.ram (toNat_lt_arrayLimit destination), Int.toNat_of_nonneg hd, Memory.store]
    change lift (machine.ram.locate destination.toInt data.length >>= _) >>= _ =
      lift ((machine.ram.locate destination.toInt data.length >>= _) >>= _)
    cases machine.ram.locate destination.toInt data.length <;> rfl

theorem nestedRange_eq {machine : Machine} (fits : machine.ram.size < arrayLimit)
    (offset length : Int32) (depth : Nat) :
    Hosted.nestedRange machine offset length depth = lift do
      return (← nestedStart machine offset length depth, length.toInt.toNat) := by
  unfold Hosted.nestedRange nestedStart
  by_cases full : machine.maxDepth ≤ depth
  · rw [if_pos full, if_pos full]
    rfl
  rw [if_neg full, if_neg full]
  by_cases hoffset : offset < 0
  · rw [if_pos (Or.inl hoffset), if_pos hoffset]
    simp only [hoffset, ↓reduceIte]
    rfl
  by_cases hlength : length < 0
  · rw [if_pos (Or.inr hlength), if_neg hoffset, if_pos hlength]
    simp only [hoffset, ↓reduceIte]
    rfl
  rw [if_neg (not_or.mpr ⟨hoffset, hlength⟩), if_neg hoffset, if_neg hlength]
  have ho := toInt_nonneg hoffset
  refine (bind_of_ok (sizeOf_of_nonneg ho)).trans ?_
  refine (bind_of_ok (sizeOf_of_nonneg (toInt_nonneg hlength))).trans ?_
  rw [readArray_eq fits (toNat_lt_arrayLimit offset), Memory.load, Int.toNat_of_nonneg ho]
  cases hl : machine.ram.locate offset.toInt length.toInt.toNat with
  | error fault => rfl
  | ok start =>
    obtain rfl : offset.toInt.toNat = start := by
      rw [(Memory.locate_eq_ok_iff.mp hl).1, Int.toNat_natCast]
    rfl

theorem carries_enter {offset length : Int32} {depth resume : Nat} :
    Carries (Hosted.enter offset length depth resume) (enter offset length depth resume) where
  same := by
    intro session fits
    unfold Hosted.enter enter
    by_cases hlength : length = 0
    · rw [if_pos hlength, if_pos hlength]
      rfl
    rw [if_neg hlength, if_neg hlength]
    have hrange := nestedRange_eq fits.ram offset length depth
    cases hstart : nestedStart session.machine offset length depth with
    | error fault =>
      rw [hstart] at hrange
      rw [bind_error (observe_error hstart)]
      exact observe_bind_error hrange
    | ok start =>
      rw [hstart] at hrange
      obtain ⟨hdepth, hinside⟩ := nestedStart_eq_ok hstart
      have hinner : depth + 1 < sizeLimit := Nat.lt_of_le_of_lt hdepth fits.maxDepth
      have hstop : start + length.toInt.toNat < sizeLimit :=
        Nat.lt_trans (Nat.lt_of_le_of_lt hinside fits.ram) (by decide)
      rw [bind_ok (observe_ok hstart)]
      refine (observe_bind_ok hrange).trans ?_
      refine (observe_bind_ok (size_of_lt hinner)).trans ?_
      exact (observe_bind_ok (size_of_lt hstop)).trans rfl
  keeps := keeps_enter

end Executions

theorem apply_eq (operation : Arithmetic) (a b : Int32) :
    apply operation a b = lift (operation.apply a b) := by
  cases operation with
  | divide =>
    unfold apply Arithmetic.apply
    by_cases h : b = 0
    · simp only [h, ↓reduceIte]
      rfl
    · simp only [h, ↓reduceIte, quotient]
      rfl
  | remainder =>
    unfold apply Arithmetic.apply
    by_cases h : b = 0
    · simp only [h, ↓reduceIte]
      rfl
    · simp only [h, ↓reduceIte, remainder]
      rfl
  | _ => rfl

/-- Every statement has the operands that its instruction asks for. -/
theorem carries_perform (statement : Statement) (next depth : Nat) :
    Carries (perform statement next depth) (statement.perform next depth) := by
  cases statement using Statement.byInstruction with
  | move condition source target =>
    exact carries_slot rfl <| carries_load.bind fun value => carries_slot rfl <|
      carries_store.bind fun _ => carries_pure
  | compute operation condition left right target =>
    refine carries_slot rfl <| carries_load.bind fun a => carries_slot rfl <| carries_load.bind fun b => ?_
    refine (carries_observe fun _ _ => apply_eq operation a b).bind fun result => ?_
    exact carries_slot rfl <| carries_store.bind fun _ => carries_note.bind fun _ => carries_pure
  | receive condition target =>
    exact carries_receive.bind fun value => carries_slot rfl <|
      carries_store.bind fun _ => carries_pure
  | send condition source =>
    exact carries_slot rfl <| carries_load.bind fun value => carries_send.bind fun _ => carries_pure
  | compare condition left right =>
    refine carries_slot rfl <| carries_load.bind fun a => carries_slot rfl <| carries_load.bind fun b => ?_
    exact carries_setCompare.bind fun _ => carries_note.bind fun _ => carries_pure
  | branch condition target =>
    refine carries_slot rfl <| carries_load.bind fun offset => ?_
    by_cases hoffset : offset < 0
    · simp only [hoffset, ↓reduceIte]
      exact ⟨fun _ _ => rfl, keeps_throw⟩
    · simp only [hoffset, ↓reduceIte]
      rw [sizeOf_of_nonneg (toInt_nonneg hoffset)]
      exact carries_pure
  | diskRead condition offset target =>
    refine carries_slot rfl <| carries_load.bind fun address => carries_readDisk.bind fun value => ?_
    exact carries_slot rfl <| carries_store.bind fun _ => carries_pure
  | diskWrite condition source offset =>
    refine carries_slot rfl <| carries_load.bind fun value => ?_
    refine carries_slot rfl <| carries_load.bind fun address => ?_
    exact carries_writeDisk.bind fun _ => carries_pure
  | execute condition offset length =>
    exact carries_slot rfl <| carries_load.bind fun start => carries_slot rfl <|
      carries_load.bind fun size => carries_enter
  | stop condition => exact carries_pure
  | diskLoad condition source target length =>
    refine carries_slot rfl <| carries_load.bind fun s => carries_slot rfl <| carries_load.bind fun d => ?_
    exact carries_slot rfl <| carries_load.bind fun n => carries_copyFromDisk.bind fun _ => carries_pure

section Statements

variable {session : Session} {code : Code} {offset depth : Nat}

theorem executeAt_eq (fits : session.machine.shape.Fits) (inside : code.Inside session.machine.ram)
    (small : code.size < arrayLimit) :
    executeAt code offset depth session = liftResult (code.executeAt offset depth session) := by
  have hupcoming : upcoming code offset session.machine = _ := upcoming_eq fits.ram inside small
  cases hu : code.upcoming offset session.machine with
  | error fault =>
    rw [hu] at hupcoming
    rw [Code.executeAt_of_error hu]
    exact observe_bind_error hupcoming
  | ok what =>
    rw [hu] at hupcoming
    cases what with
    | execute statement =>
      rw [Code.executeAt_of_execute hu]
      refine (observe_bind_ok hupcoming).trans ?_
      exact (carries_perform statement (offset + statement.length) depth).same
        (session.note (.executed depth offset statement)) fits
    | skip instruction condition =>
      rw [Code.executeAt_of_skip hu]
      exact (observe_bind_ok hupcoming).trans rfl

end Statements

end Host

/-- All bytes of the stream are there, and a host can hold them. -/
structure Code.Hostable (ram : Memory) (code : Code) : Prop where
  inside : code.Inside ram
  small : code.size < Host.arrayLimit

/-- A range inside RAM is a stream that a host can hold. -/
theorem Code.hostable_range {ram : Memory} (fits : ram.size < Host.arrayLimit) (start length : Nat)
    (inside : start + length ≤ ram.size) : (Code.ram start length).Hostable ram :=
  ⟨inside, Nat.lt_of_le_of_lt (Nat.le_trans (Nat.le_add_left ..) inside) fits⟩

namespace Engine

/-- The machine fits into a host, and so does every stream that has begun. -/
structure Hostable (engine : Engine) : Prop where
  fits : engine.session.machine.shape.Fits
  streams : ∀ frame ∈ engine.frames, frame.code.Hostable engine.session.machine.ram

theorem Hostable.next {engine : Engine} (h : engine.Hostable) : engine.step.Hostable := by
  have hshape := step_shape engine
  refine ⟨hshape ▸ h.fits, fun frame hframe => ?_⟩
  obtain ⟨inside, small⟩ := codes_step (Code.hostable_range h.fits.ram) h.streams frame hframe
  exact ⟨inside.of_size_eq (congrArg Shape.ram hshape), small⟩

theorem Hostable.step_eq {engine : Engine} (h : engine.Hostable) : Host.step engine = .ok engine.step := by
  match engine with
  | ⟨_, _, [], none⟩ => rfl
  | ⟨_, _, [], some _⟩ => rfl
  | ⟨_, _, _ :: _, some _⟩ => rfl
  | ⟨session, base, frame :: outer, none⟩ =>
    obtain ⟨inside, small⟩ := h.streams frame List.mem_cons_self
    have hexecute : Host.executeAt frame.code frame.offset (base + outer.length) session = _ :=
      Host.executeAt_eq h.fits inside small
    by_cases hs : frame.offset < frame.code.size
    · simp only [Host.step, step, hs, ↓reduceIte, hexecute]
      cases frame.code.executeAt frame.offset (base + outer.length) session with
      | error fault after => rfl
      | ok transfer after => cases transfer <;> rfl
    · simp only [Host.step, step, hs, ↓reduceIte]

theorem Hostable.steps {engine : Engine} (h : engine.Hostable) (count : Nat) :
    (engine.steps count).Hostable ∧ Host.steps count engine = .ok (engine.steps count) := by
  induction count generalizing engine with
  | zero => exact ⟨h, rfl⟩
  | succ count ih =>
    obtain ⟨hlater, hsteps⟩ := ih h.next
    rw [Engine.steps, Host.steps, h.step_eq]
    exact ⟨hlater, hsteps⟩

section Image

variable {session : Session} {image : Bytes} (fits : session.machine.shape.Fits)

include fits

theorem hostable_ofImage (himage : image.size < Host.arrayLimit) : (ofImage session image).Hostable where
  fits := fits
  streams := by
    intro frame hframe
    obtain rfl := List.mem_singleton.mp hframe
    exact ⟨trivial, himage⟩

theorem host_ofStatement (himage : image.size < Host.arrayLimit) (offset : Nat) :
    Host.ofStatement session (.image image) offset = .ok (ofStatement session (.image image) offset) := by
  have hexecute : Host.executeAt (.image image) offset 0 session = _ :=
    Host.executeAt_eq fits trivial himage
  rw [Host.ofStatement, hexecute, ofStatement]
  cases (Code.image image).executeAt offset 0 session with
  | error fault after => rfl
  | ok transfer after => cases transfer <;> rfl

theorem hostable_ofStatement (offset : Nat) : (ofStatement session (.image image) offset).1.Hostable := by
  have hshape := ofStatement_shape session (.image image) offset
  refine ⟨hshape ▸ fits, fun frame hframe => ?_⟩
  obtain ⟨inside, small⟩ := codes_ofStatement (Code.hostable_range fits.ram) frame hframe
  exact ⟨inside.of_size_eq (congrArg Shape.ram hshape), small⟩

end Image

/-- The engines that run an image, or one statement of it with the streams that it begins. -/
inductive Begins (session : Session) (image : Bytes) : Engine → Prop
  | run : Begins session image (ofImage session image)
  | statement (offset : Nat) : Begins session image (ofStatement session (.image image) offset).1

/--
A host that can hold the machine and the image takes every step as the engine does, and meets no trap.
No step changes the shape of the machine, and all that can fail in a fetch is that bytes are missing.
-/
theorem host_meets_no_trap (session : Session) (image : Bytes) (fits : session.machine.shape.Fits)
    (himage : image.size < Host.arrayLimit) :
    (∀ offset, Host.ofStatement session (.image image) offset =
      .ok (ofStatement session (.image image) offset)) ∧
    ∀ engine, Begins session image engine → ∀ count,
      Host.steps count engine = .ok (engine.steps count) ∧
      (engine.steps count).session.machine.shape = session.machine.shape ∧
      ∀ frame ∈ (engine.steps count).frames,
        frame.code.Inside (engine.steps count).session.machine.ram ∧
        ∀ offset length fault, 0 < length →
          frame.code.fetch (engine.steps count).session.machine.ram offset length = .error fault →
          fault = .truncatedStatement length (frame.code.size - offset) := by
  refine ⟨host_ofStatement fits himage, fun engine begins count => ?_⟩
  have hbegins : engine.Hostable ∧ engine.session.machine.shape = session.machine.shape := by
    cases begins with
    | run => exact ⟨hostable_ofImage fits himage, rfl⟩
    | statement offset => exact ⟨hostable_ofStatement fits offset, ofStatement_shape ..⟩
  obtain ⟨hostable, hshape⟩ := hbegins
  obtain ⟨hlater, hsteps⟩ := hostable.steps count
  refine ⟨hsteps, (steps_shape count engine).trans hshape, ?_⟩
  intro frame hframe
  have hinside := (hlater.streams frame hframe).inside
  exact ⟨hinside, fun offset length fault hlength hfault => Code.fetch_eq_error hinside hlength hfault⟩

/-- A machine with the least word in a register, and a stream in RAM that ends at once. -/
def leastWord : Session :=
  .ofMachine {
    registers := ⟨#[Int32.minValue], 0⟩
    ram := ⟨.ram, #[0x11, 0]⟩
    disk := .ofBytes "" #[]
    console := .ofInput []
    maxDepth := 1 }

/-- Divides the register by -1, and then runs all of RAM. -/
def leastQuotient : Bytes :=
  #[0x05, 0, 0, 0, 0, 0, 0, 3, 8, 0, 0, 1, 0, 0, 0, 0, 0, 0x10, 0, 3, 0, 0, 0, 0, 3, 0, 0, 0, 2]

theorem host_meets_no_trap_leastQuotient :
    leastWord.machine.shape.Fits ∧ leastQuotient.size < Host.arrayLimit ∧
      Host.steps 4 (ofImage leastWord leastQuotient) = .ok ((ofImage leastWord leastQuotient).steps 4) ∧
      ((ofImage leastWord leastQuotient).steps 4).done = true ∧
      ((ofImage leastWord leastQuotient).steps 4).session.machine = leastWord.machine := by
  have fits : leastWord.machine.shape.Fits := ⟨by decide, by decide, by decide⟩
  have himage : leastQuotient.size < Host.arrayLimit := by decide
  have hruns := (host_meets_no_trap leastWord leastQuotient fits himage).2 _ .run 4
  exact ⟨fits, himage, hruns.1, by decide +kernel, by decide +kernel⟩

end Engine
end Microcomputer
