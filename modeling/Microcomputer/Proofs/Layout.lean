import Microcomputer.Proofs.Codec
import Microcomputer.Proofs.Recursion

/-!
# Runs inside a layout

A layout names offsets of an image at which statements lie that lead on to each other or to its end. A run
of the image never leaves them at its outermost level, whatever nested streams do, so no fault of it there
is one of bytes that are no statement.
-/
namespace Microcomputer

/-- The statement is encoded in the image at `offset`. -/
def Statement.LiesAt (statement : Statement) (image : Bytes) (offset : Nat) : Prop :=
  ∃ bytes, statement.encode = .ok bytes ∧ offset + bytes.length ≤ image.size ∧
    image.window offset bytes.length = bytes

section Fetch

variable {image : Bytes} {offset : Nat} {statement : Statement}

theorem Code.fetch_image {ram : Memory} {length : Nat} (h : offset + length ≤ image.size) :
    (Code.image image).fetch ram offset length = .ok (image.window offset length) := by
  have henough : ¬ (Code.image image).size - offset < length := by
    rw [Code.size]
    omega
  rw [fetch, if_neg henough]

/-- What comes next where a statement lies is that statement. -/
theorem Statement.LiesAt.upcoming (h : statement.LiesAt image offset) (machine : Machine) :
    (Code.image image).upcoming offset machine =
      .ok (if statement.condition.holds machine.registers.compare then .execute statement
        else .skip statement.instruction statement.condition) := by
  obtain ⟨bytes, hencode, hinside, hwindow⟩ := h
  have hlength : bytes.length = statement.instruction.length := Statement.length_of_encode hencode
  have hheader : Statement.headerSize ≤ bytes.length := by
    rw [hlength, Instruction.length, Statement.headerSize]
    omega
  have hfront : image.window offset Statement.headerSize = bytes.take Statement.headerSize := by
    rw [← hwindow, Bytes.take_window hheader]
  have hdecodeHeader := Statement.decodeHeader_of_encode hencode []
  have hdecodeBody := Statement.decodeBody_of_encode hencode []
  rw [List.append_nil] at hdecodeHeader hdecodeBody
  rw [hlength] at hinside hwindow
  refine bind_eq_ok.mpr ⟨_, Code.fetch_image (by omega), ?_⟩
  refine bind_eq_ok.mpr ⟨_, hfront ▸ hdecodeHeader, ?_⟩
  refine bind_eq_ok.mpr ⟨_, Code.fetch_image hinside, ?_⟩
  by_cases hcondition : statement.condition.holds machine.registers.compare = true
  · simp only [hcondition, ↓reduceIte, hwindow]
    exact bind_eq_ok.mpr ⟨_, hdecodeBody, rfl⟩
  · simp only [hcondition, Bool.false_eq_true, ↓reduceIte]
    rfl

end Fetch

/-- A start of a statement, or the end of the image. -/
def IsSite (image : Bytes) (starts : Nat → Prop) (offset : Nat) : Prop :=
  starts offset ∨ offset = image.size

structure Layout where
  image : Bytes
  starts : Nat → Prop
  /-- Behind a statement lies another one or the end, and a branch names such an offset as a constant. -/
  statement : ∀ offset, starts offset → ∃ statement : Statement, statement.LiesAt image offset ∧
    IsSite image starts (offset + statement.length) ∧
    (statement.instruction = .branch → ∃ address,
      statement.operands = [⟨.constant, Int32.ofNat address⟩] ∧ address ≤ Word.maxMagnitude ∧
        IsSite image starts address)

namespace Layout

variable {layout : Layout}

def Site (layout : Layout) : Nat → Prop :=
  IsSite layout.image layout.starts

/-- The stream goes on at a site, if it goes on. -/
def Continues (layout : Layout) : Transfer → Prop
  | .goto offset => layout.Site offset
  | .call _ _ resume => layout.Site resume
  | .leave => True

theorem continues_of_passes {instruction : Instruction} {next : Nat} {transfer : Transfer}
    (h : instruction.Passes next transfer) (hbranch : instruction ≠ .branch) (hnext : layout.Site next) :
    layout.Continues transfer := by
  cases transfer with
  | goto offset =>
    obtain rfl := h.2 hbranch
    exact hnext
  | call start length resume =>
    obtain rfl := h.2
    exact hnext
  | leave => trivial

/-- A statement of the layout passes control to a site, or fails as statements do. -/
theorem executeAt_start {offset : Nat} (h : layout.starts offset) (depth : Nat) (session : Session) :
    Execution.Yields ((Code.image layout.image).executeAt offset depth)
      (fun transfer _ => layout.Continues transfer) (fun fault _ => fault.isStray = false) session := by
  obtain ⟨statement, hlies, hnext, htarget⟩ := layout.statement offset h
  have hupcoming := hlies.upcoming session.machine
  by_cases hcondition : statement.condition.holds session.machine.registers.compare = true
  · rw [if_pos hcondition] at hupcoming
    rw [Execution.Yields, Code.executeAt_of_execute hupcoming]
    by_cases hbranch : statement.instruction = .branch
    · obtain ⟨address, hoperands, hsmall, hsite⟩ := htarget hbranch
      rw [Statement.perform_jump hbranch hoperands hsmall]
      exact hsite
    · have hpasses := statement.perform_passes (offset + statement.length) depth
        (session.note (.executed depth offset statement))
      have hsteady := Statement.perform_steady hbranch (offset + statement.length) depth
        (session.note (.executed depth offset statement))
      cases hx : statement.perform (offset + statement.length) depth
          (session.note (.executed depth offset statement)) with
      | ok transfer after => exact continues_of_passes (hpasses.of_ok hx) hbranch hnext
      | error fault after => exact hsteady.of_error hx
  · rw [if_neg hcondition] at hupcoming
    rw [Execution.Yields, Code.executeAt_of_skip hupcoming]
    exact hnext

/-- The outermost stream is the image at a site of the layout, and has not failed astray. -/
structure Keeps (layout : Layout) (engine : Engine) : Prop where
  base : engine.base = 0
  outermost : ∀ frame, engine.frames.getLast? = some frame →
    frame.code = .image layout.image ∧ layout.Site frame.offset
  steady : ∀ failure, engine.failure = some failure → failure.depth = 0 →
    failure.fault.isStray = false

section Run

open Engine

/-- An engine that has not failed is as it should be if its outermost frame is. -/
theorem keeps_of_frames {session : Session} {frames : List Frame}
    (h : ∀ frame, frames.getLast? = some frame →
      frame.code = .image layout.image ∧ layout.Site frame.offset) :
    layout.Keeps ⟨session, 0, frames, none⟩ where
  base := rfl
  outermost := h
  steady := by
    intro failure hf
    cases hf

theorem keeps_of_site {session : Session} {offset : Nat} {frames : List Frame}
    (hlast : frames.getLast? = some ⟨.image layout.image, offset⟩) (h : layout.Site offset) :
    layout.Keeps ⟨session, 0, frames, none⟩ := by
  refine keeps_of_frames fun frame hf => ?_
  obtain rfl := Option.some.inj (hlast.symm.trans hf)
  exact ⟨rfl, h⟩

theorem keeps_fail {session : Session} {frames : List Frame} {fault : Fault} {offset depth : Nat}
    (h : ∀ frame, frames.getLast? = some frame →
      frame.code = .image layout.image ∧ layout.Site frame.offset)
    (hfault : depth = 0 → fault.isStray = false) :
    layout.Keeps (fail session 0 frames fault offset depth) where
  base := rfl
  outermost := h
  steady := by
    intro failure hf
    obtain rfl := Option.some.inj hf
    exact hfault

/-- One step keeps the outermost stream at the sites of the layout. -/
theorem Keeps.step {engine : Engine} (h : layout.Keeps engine) : layout.Keeps engine.step := by
  match engine with
  | ⟨_, _, [], none⟩ => exact h
  | ⟨_, _, [], some _⟩ => exact h
  | ⟨_, _, _ :: _, some _⟩ => exact h
  | ⟨session, base, [⟨code, offset⟩], none⟩ =>
    obtain ⟨rfl, hsite⟩ := h.outermost _ rfl
    obtain rfl : base = 0 := h.base
    have hyields (hs : offset < layout.image.size) :=
      executeAt_start (hsite.resolve_right (Nat.ne_of_lt hs)) 0 session
    apply step_cases ⟨.image layout.image, offset⟩ []
    case fails =>
      intro fault after hs hx
      exact keeps_fail h.outermost fun _ => (hyields hs).of_error hx
    case goes =>
      intro next after hs hx
      exact keeps_of_site rfl ((hyields hs).of_ok hx)
    case calls =>
      intro start length resume after hs hx
      exact keeps_of_site rfl ((hyields hs).of_ok hx)
    case leaves => exact fun _ _ _ => keeps_of_frames fun frame hf => nomatch hf
    case ends => exact fun _ => keeps_of_frames fun frame hf => nomatch hf
  | ⟨session, base, ⟨code, offset⟩ :: below :: outer, none⟩ =>
    -- The outermost frame waits below a nested stream, whose depth is not zero.
    obtain rfl : base = 0 := h.base
    have hlast : ∀ frame, (below :: outer).getLast? = some frame →
        frame.code = .image layout.image ∧ layout.Site frame.offset := h.outermost
    apply step_cases ⟨code, offset⟩ (below :: outer)
    case fails =>
      intro fault after _ _
      exact keeps_fail hlast fun hdepth => absurd hdepth (by simp)
    case goes => exact fun _ _ _ _ => keeps_of_frames hlast
    case calls => exact fun _ _ _ _ _ _ => keeps_of_frames hlast
    case leaves => exact fun _ _ _ => keeps_of_frames hlast
    case ends => exact fun _ => keeps_of_frames hlast

theorem Keeps.steps {engine : Engine} (h : layout.Keeps engine) (count : Nat) :
    layout.Keeps (engine.steps count) := by
  induction count with
  | zero => exact h
  | succ count ih => rw [steps_succ]; exact ih.step

theorem keeps_ofImage (session : Session) (h : layout.Site 0) :
    layout.Keeps (.ofImage session layout.image) :=
  keeps_of_site rfl h

/-- The answer of a run is no fault of a stray stream either, unless it comes from a nested one. -/
theorem Keeps.isStray_of_result {engine : Engine} (h : layout.Keeps engine) {failure : Failure}
    (hresult : engine.result = .error failure) (hdepth : failure.depth = 0) :
    failure.fault.isStray = false := by
  unfold result at hresult
  split at hresult
  · next hfailure =>
    obtain rfl := Except.error.inj hresult
    exact h.steady _ hfailure hdepth
  · split at hresult
    · cases hresult
    · obtain rfl := Except.error.inj hresult
      rfl

end Run

end Layout

end Microcomputer
