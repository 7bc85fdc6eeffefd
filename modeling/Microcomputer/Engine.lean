import Microcomputer.Execution

/-!
# The engine

Statements are fetched from an image outside the machine or from a range of RAM, read anew for each
statement. The engine holds one frame for every stream that has begun and not ended, innermost first,
and takes one step at a time; a step of an engine that has come to rest changes nothing.
-/
namespace Microcomputer

inductive Code
  | image (bytes : Bytes)
  | ram (start length : Nat)
  deriving DecidableEq, Repr

/-- A statement to execute, or the header of one that its condition passes over. -/
inductive Upcoming
  | execute (statement : Statement)
  | skip (instruction : Instruction) (condition : Condition)
  deriving DecidableEq, Repr

namespace Code

def size : Code → Nat
  | image bytes => bytes.size
  | ram _ length => length

/-- `length` bytes of the stream from `offset` on. -/
def fetch (code : Code) (ram : Memory) (offset length : Nat) : Except Fault (List UInt8) :=
  if code.size - offset < length then
    .error (.truncatedStatement length (code.size - offset))
  else
    match code with
    | image bytes => .ok (bytes.window offset length)
    | .ram start _ => ram.load (start + offset : Nat) length

/-- What comes next at `offset`. The operands of a skipped statement are not decoded. -/
def upcoming (code : Code) (offset : Nat) (machine : Machine) : Except Fault Upcoming := do
  let header ← code.fetch machine.ram offset Statement.headerSize
  let (instruction, condition) ← Statement.decodeHeader header
  let bytes ← code.fetch machine.ram offset instruction.length
  if condition.holds machine.registers.compare then
    return .execute (← Statement.decodeBody instruction condition bytes)
  else
    return .skip instruction condition

/-- Executes or skips the statement at `offset`. -/
def executeAt (code : Code) (offset depth : Nat) : Execution Transfer := do
  match ← Execution.observe (code.upcoming offset) with
  | .execute statement =>
    Execution.note (.executed depth offset statement)
    statement.perform (offset + statement.length) depth
  | .skip instruction condition =>
    let compare ← Execution.observe fun machine => .ok machine.registers.compare
    Execution.note (.skipped depth offset instruction condition compare)
    return .goto (offset + instruction.length)

end Code

/-- A stream, and the offset in it of the statement that comes next. -/
structure Frame where
  code : Code
  offset : Nat
  deriving DecidableEq, Repr

structure Engine where
  session : Session
  /-- The depth of the outermost frame. -/
  base : Nat
  frames : List Frame
  failure : Option Failure
  deriving DecidableEq, Repr

namespace Engine

/-- About to run an image from its start. -/
def ofImage (session : Session) (image : Bytes) : Engine :=
  ⟨session, 0, [⟨.image image, 0⟩], none⟩

def done (engine : Engine) : Bool :=
  engine.frames.isEmpty || engine.failure.isSome

/-- Reports a fault of the statement at `offset`, and comes to rest. -/
def fail (session : Session) (base : Nat) (frames : List Frame) (fault : Fault) (offset depth : Nat) :
    Engine :=
  let failure := ⟨fault, offset, depth⟩
  ⟨session.note (.failed failure), base, frames, some failure⟩

def step : Engine → Engine
  | ⟨session, base, frame :: outer, none⟩ =>
    let depth := base + outer.length
    if frame.offset < frame.code.size then
      match frame.code.executeAt frame.offset depth session with
      | .ok (.goto offset) session => ⟨session, base, ⟨frame.code, offset⟩ :: outer, none⟩
      | .ok (.call start length resume) session =>
        ⟨session, base, ⟨.ram start length, 0⟩ :: ⟨frame.code, resume⟩ :: outer, none⟩
      | .ok .leave session => ⟨session.note (.halted depth frame.offset), base, outer, none⟩
      | .error fault session => fail session base (frame :: outer) fault frame.offset depth
    else
      ⟨session.note (.exhausted depth frame.code.size), base, outer, none⟩
  | engine => engine

def steps : Nat → Engine → Engine
  | 0, engine => engine
  | count + 1, engine => steps count engine.step

/-- The engine comes to rest as `final`. -/
def Settles (engine final : Engine) : Prop :=
  ∃ count, engine.steps count = final ∧ final.done = true

/-- What the next step executes or skips, if it gets that far. -/
def upcoming? : Engine → Option Upcoming
  | ⟨session, _, frame :: _, none⟩ => (frame.code.upcoming frame.offset session.machine).toOption
  | _ => none

/-- Whether the next step reads from the console and finds no byte there. -/
def awaitsInput (engine : Engine) : Bool :=
  match engine.upcoming? with
  | some (.execute statement) =>
    statement.instruction == .receive && engine.session.machine.console.input.isEmpty
  | _ => false

/-- What a run that has come to rest answers: its own failure, or else that of the final flush. -/
def result (engine : Engine) : Except Failure Unit :=
  match engine.failure with
  | some failure => .error failure
  | none =>
    match engine.session.machine.console.flush with
    | .ok () => .ok ()
    | .error cause => .error ⟨.console cause, 0, 0⟩

theorem step_of_done {engine : Engine} (h : engine.done = true) : engine.step = engine := by
  match engine with
  | ⟨_, _, [], none⟩ => rfl
  | ⟨_, _, [], some _⟩ => rfl
  | ⟨_, _, _ :: _, some _⟩ => rfl
  | ⟨_, _, _ :: _, none⟩ => simp [done] at h

theorem steps_of_done {engine : Engine} (h : engine.done = true) (count : Nat) :
    engine.steps count = engine := by
  induction count with
  | zero => rfl
  | succ count ih => rw [steps, step_of_done h, ih]

theorem steps_add (m n : Nat) (engine : Engine) : engine.steps (m + n) = (engine.steps m).steps n := by
  induction m generalizing engine with
  | zero => rw [Nat.zero_add, steps]
  | succ m ih => rw [Nat.succ_add, steps, ih, steps]

theorem Settles.unique {engine a b : Engine} (ha : engine.Settles a) (hb : engine.Settles b) : a = b := by
  obtain ⟨m, rfl, hm⟩ := ha
  obtain ⟨n, rfl, hn⟩ := hb
  rcases Nat.le_total m n with h | h
  · obtain ⟨k, rfl⟩ := Nat.exists_eq_add_of_le h
    rw [steps_add, steps_of_done hm]
  · obtain ⟨k, rfl⟩ := Nat.exists_eq_add_of_le h
    rw [steps_add, steps_of_done hn]

end Engine

/-- What follows a statement that was executed on its own. -/
inductive Flow
  | goto (offset : Nat)
  | halt
  deriving DecidableEq, Repr

/--
One statement executed on its own, and what follows it. If the statement began a nested stream, the
engine has yet to run that stream, and the flow counts only once it has ended without a failure.
-/
def Engine.ofStatement (session : Session) (code : Code) (offset : Nat) : Engine × Flow :=
  match code.executeAt offset 0 session with
  | .ok (.goto next) session => (⟨session, 1, [], none⟩, .goto next)
  | .ok (.call start length resume) session =>
    (⟨session, 1, [⟨.ram start length, 0⟩], none⟩, .goto resume)
  | .ok .leave session => (⟨session, 1, [], none⟩, .halt)
  | .error fault session => (.fail session 1 [] fault offset 0, .halt)

end Microcomputer
