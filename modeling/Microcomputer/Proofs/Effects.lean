import Microcomputer.Proofs.Addressing
import Microcomputer.Proofs.Comparison
import Microcomputer.Proofs.DiskCopy
import Microcomputer.Proofs.Locality
import Microcomputer.Proofs.Recall

/-!
# What a statement changes

A statement that completes changes what its instruction names and nothing else: the place that it stores to,
the compare flag, a number on the disk, a range of RAM, a byte of the console. In a run the flag is therefore
the difference that was found by the last comparison.
-/
namespace Microcomputer

/-- Nothing has changed but what the instruction of the statement names. -/
structure Statement.Confined (statement : Statement) (before after : Machine) : Prop where
  compare : statement.instruction ≠ .compare → after.registers.compare = before.registers.compare
  disk : statement.instruction ≠ .diskWrite → after.disk = before.disk
  /-- Of the disk only the four bytes at the offset that was read. -/
  number : statement.instruction = .diskWrite → ∃ source place offset,
    statement.operands = [source, place] ∧ place.read before.registers before.ram = .ok offset ∧
      before.disk.buffer.HoldsNumber offset ∧ ∀ index, ¬Covers offset index →
        after.disk.buffer.bytes[index]? = before.disk.buffer.bytes[index]?
  output : statement.instruction ≠ .send → after.console.output = before.console.output
  sent : statement.instruction = .send → ∃ byte, after.console.output = before.console.output.push byte
  input : statement.instruction ≠ .receive → after.console.input = before.console.input
  received : statement.instruction = .receive → after.console.input = before.console.input ∨
    ∃ byte, before.console.input = byte :: after.console.input
  /-- Of the registers and of RAM only what the last operand stands for. -/
  stored : statement.instruction.stores = true → ∃ target, statement.operands.getLast? = some target ∧
    target.Rewrites before.registers before.ram after.registers after.ram
  /-- Of RAM only the range that is copied to. -/
  loaded : statement.instruction = .diskLoad → after.registers = before.registers ∧
    ∃ source target length d n, statement.operands = [source, target, length] ∧
      target.read before.registers before.ram = .ok d ∧ length.read before.registers before.ram = .ok n ∧
      0 ≤ d.toInt ∧ d.toInt + n.toInt ≤ before.ram.size ∧
      ∀ index : Nat, index < d.toInt ∨ d.toInt + n.toInt ≤ index →
        after.ram.bytes[index]? = before.ram.bytes[index]?
  stays : statement.instruction.stores = false → statement.instruction ≠ .diskLoad →
    after.registers.values = before.registers.values ∧ after.ram = before.ram
  unchanged : statement.instruction = .branch ∨ statement.instruction = .stop → after = before
  console : { after.console with input := before.console.input, output := before.console.output } =
    before.console
  shape : after.shape = before.shape

section Perform

open Execution

variable {statement : Statement} {next depth : Nat} {session : Session}

/-- What comes after a store and keeps the machine does not blur what the store has changed. -/
theorem Execution.yields_store_rewrites {α : Type} {target : Operand} {value : Int32} {rest : Execution α}
    (hrest : Keeps id rest) :
    Yields (store target value >>= fun _ => rest) (fun _ after =>
      target.Rewrites session.machine.registers session.machine.ram after.machine.registers after.machine.ram)
      (fun _ _ => True) session := by
  refine yields_bind.mpr ?_
  unfold Yields
  cases hwrite : target.write session.machine.registers session.machine.ram value with
  | error fault =>
    rw [store_of_error hwrite]
    trivial
  | ok written =>
    rw [store_of_write hwrite]
    refine (hrest _).mono (fun _ after hsame => ?_) fun _ _ _ => trivial
    have hmachine : after.machine = _ := hsame
    rw [hmachine]
    exact Operand.rewrites_of_write hwrite

/-- A statement that stores changes what its last operand stood for when it began. -/
theorem Statement.perform_rewrites (h : statement.instruction.stores = true) :
    Yields (statement.perform next depth) (fun _ after => ∃ target,
      statement.operands.getLast? = some target ∧ target.Rewrites session.machine.registers
        session.machine.ram after.machine.registers after.machine.ram) (fun _ _ => True) session := by
  -- all that is done before the store leaves registers and RAM as they are
  cases statement using Statement.byInstruction with
  | move condition source target =>
    refine yields_observe_bind.mpr ⟨fun value _ => ?_, fun _ _ => trivial⟩
    exact (yields_store_rewrites keeps_pure).mono (fun _ _ hstored => ⟨target, rfl, hstored⟩)
      fun _ _ _ => trivial
  | compute operation condition left right target =>
    refine yields_observe_bind.mpr ⟨fun a _ => ?_, fun _ _ => trivial⟩
    refine yields_observe_bind.mpr ⟨fun b _ => ?_, fun _ _ => trivial⟩
    refine yields_observe_bind.mpr ⟨fun result _ => ?_, fun _ _ => trivial⟩
    exact (yields_store_rewrites (keeps_note.bind fun _ => keeps_pure)).mono
      (fun _ _ hstored => ⟨target, rfl, hstored⟩) fun _ _ _ => trivial
  | receive condition target =>
    refine yields_bind.mpr ((receive_mayReceive session).mono (fun value middle htaken => ?_)
      fun _ _ _ => trivial)
    obtain ⟨hregisters, hram, -⟩ := htaken.same
    rw [← hregisters, ← hram]
    exact (yields_store_rewrites keeps_pure).mono (fun _ _ hstored => ⟨target, rfl, hstored⟩)
      fun _ _ _ => trivial
  | diskRead condition offset target =>
    refine yields_observe_bind.mpr ⟨fun place _ => ?_, fun _ _ => trivial⟩
    refine yields_observe_bind.mpr ⟨fun value _ => ?_, fun _ _ => trivial⟩
    exact (yields_store_rewrites keeps_pure).mono (fun _ _ hstored => ⟨target, rfl, hstored⟩)
      fun _ _ _ => trivial
  | send | compare | branch | diskWrite | execute | stop | diskLoad => cases h

theorem Statement.perform_takes (h : statement.instruction = .receive) :
    Yields (statement.perform next depth) (fun _ after =>
      after.machine.console.input = session.machine.console.input ∨
        ∃ byte, session.machine.console.input = byte :: after.machine.console.input)
      (fun _ _ => True) session := by
  obtain ⟨_, condition, operands, arity⟩ := statement
  subst h
  obtain ⟨target, rfl⟩ := List.length_eq_one_iff.mp arity
  refine yields_bind.mpr ((receive_mayReceive session).mono (fun value middle htaken => ?_)
    fun _ _ _ => trivial)
  have hstore : Keeps (·.console.input) (store target value >>= fun _ => pure (Transfer.goto next)) :=
    (keeps_store (fun _ _ => rfl) fun _ _ _ => rfl).bind fun _ => keeps_pure
  refine (hstore middle).mono (fun _ after hkept => ?_) fun _ _ _ => trivial
  have hinput : after.machine.console.input = middle.machine.console.input := hkept
  rw [hinput]
  exact htaken.input

theorem Statement.perform_pushes (h : statement.instruction = .send) :
    Yields (statement.perform next depth) (fun _ after => ∃ byte,
      after.machine.console.output = session.machine.console.output.push byte)
      (fun _ _ => True) session := by
  obtain ⟨_, condition, operands, arity⟩ := statement
  subst h
  obtain ⟨source, rfl⟩ := List.length_eq_one_iff.mp arity
  refine yields_observe_bind.mpr ⟨fun value _ => ?_, fun _ _ => trivial⟩
  refine yields_bind.mpr (yields_observe_bind.mpr ⟨fun _ _ => ?_, fun _ _ => trivial⟩)
  exact ⟨_, rfl⟩

theorem Statement.perform_writesNumber (h : statement.instruction = .diskWrite) :
    Yields (statement.perform next depth) (fun _ after => ∃ source place offset,
      statement.operands = [source, place] ∧
        place.read session.machine.registers session.machine.ram = .ok offset ∧
        session.machine.disk.buffer.HoldsNumber offset ∧ ∀ index, ¬Covers offset index →
          after.machine.disk.buffer.bytes[index]? = session.machine.disk.buffer.bytes[index]?)
      (fun _ _ => True) session := by
  obtain ⟨_, condition, operands, arity⟩ := statement
  subst h
  obtain ⟨source, place, rfl⟩ := List.length_eq_two.mp arity
  refine Statement.perform_diskWrite.mono ?_ fun _ _ _ => trivial
  rintro _ after ⟨value, offset, start, word, -, hoffset, hplaced, hbuffer⟩
  have hholds := (Memory.exists_placeNumber_iff.mp ⟨_, hplaced⟩).1
  refine ⟨source, place, offset, rfl, hoffset, hholds, fun index hcovers => ?_⟩
  rw [Covers, Memory.toInt_of_placeNumber hplaced] at hcovers
  rw [hbuffer]
  refine Bytes.getElem?_overlay_of_outside ?_
  rw [Word.length_bytes]
  omega

theorem Statement.perform_loads (h : statement.instruction = .diskLoad) :
    Yields (statement.perform next depth) (fun _ after =>
      after.machine.registers = session.machine.registers ∧
      ∃ source target length d n, statement.operands = [source, target, length] ∧
        target.read session.machine.registers session.machine.ram = .ok d ∧
        length.read session.machine.registers session.machine.ram = .ok n ∧
        0 ≤ d.toInt ∧ d.toInt + n.toInt ≤ session.machine.ram.size ∧
        ∀ index : Nat, index < d.toInt ∨ d.toInt + n.toInt ≤ index →
          after.machine.ram.bytes[index]? = session.machine.ram.bytes[index]?)
      (fun _ _ => True) session := by
  obtain ⟨_, condition, operands, arity⟩ := statement
  subst h
  obtain ⟨source, target, length, rfl⟩ := List.length_eq_three.mp arity
  refine yields_observe_bind.mpr ⟨fun s hs => ?_, fun _ _ => trivial⟩
  refine yields_observe_bind.mpr ⟨fun d hd => ?_, fun _ _ => trivial⟩
  refine yields_observe_bind.mpr ⟨fun n hn => ?_, fun _ _ => trivial⟩
  refine yields_bind.mpr ?_
  unfold Yields
  cases hregion : session.machine.refusesCopy? s.toInt d.toInt n.toInt with
  | some region =>
    obtain ⟨address, hcopy⟩ := copyFromDisk_of_refusesCopy? hregion
    rw [hcopy]
    trivial
  | none =>
    have hholds := Machine.refusesCopy?_eq_none_iff.mp hregion
    obtain ⟨final, hcopy, hcopies⟩ := copyFromDisk_of_holdsCopy hholds
    obtain ⟨-, htarget, hlength, -, hinside⟩ := hholds
    rw [hcopy]
    refine ⟨by rw [hcopies.same], source, target, length, d, n, rfl, hd, hn, htarget, hinside, fun index => ?_⟩
    intro houtside
    exact hcopies.others index (by omega)

/-- A comparison that completes has read two numbers. -/
theorem Statement.perform_compares {condition : Condition} {left right : Operand}
    {arity : [left, right].length = Instruction.arity .compare} :
    Yields ((⟨.compare, condition, [left, right], arity⟩ : Statement).perform next depth)
      (fun _ _ => ∃ a b, left.read session.machine.registers session.machine.ram = .ok a ∧
        right.read session.machine.registers session.machine.ram = .ok b) (fun _ _ => True) session := by
  refine yields_observe_bind.mpr ⟨fun a ha => ?_, fun _ _ => trivial⟩
  refine yields_observe_bind.mpr ⟨fun b hb => ?_, fun _ _ => trivial⟩
  exact ⟨a, b, ha, hb⟩

/-- Each change is that of one kind of instruction, so what is no part of it is kept by all the others. -/
theorem Statement.confined_of_ok {transfer : Transfer} {after : Session}
    (h : statement.perform next depth session = .ok transfer after) :
    statement.Confined session.machine after.machine where
  compare hother := (perform_keeps_compare hother session).of_ok h
  disk hother := (perform_keeps_disk hother session).of_ok h
  number hwrites := (perform_writesNumber hwrites).of_ok h
  output hother := (perform_keeps_output hother session).of_ok h
  sent hsends := (perform_pushes hsends).of_ok h
  input hother := (perform_keeps_input hother session).of_ok h
  received hreceives := (perform_takes hreceives).of_ok h
  stored hstores := (perform_rewrites hstores).of_ok h
  loaded hloads := (perform_loads hloads).of_ok h
  stays hstores hloads := Prod.mk.inj ((perform_keeps_storage hstores hloads session).of_ok h)
  unchanged hstill := (perform_keeps_machine hstill session).of_ok h
  console := by
    -- a view of the console that no input and no output shows in
    have hkeeps : Keeps (fun machine => { machine.console with
        input := session.machine.console.input, output := session.machine.console.output })
        (statement.perform next depth) :=
      statement.perform_keeps (fun _ _ _ _ => rfl) (fun _ _ _ _ => rfl) (fun _ _ _ => rfl) (fun _ _ _ => rfl)
        (fun _ _ _ => rfl) (fun _ _ _ _ => rfl) next depth
    exact (hkeeps session).of_ok h
  shape := (statement.perform_keeps_shape next depth session).of_ok h

/-- Where control goes in the end, once a stream that the statement began has run. -/
def Transfer.flow : Transfer → Flow
  | .goto offset => .goto offset
  | .call _ _ resume => .goto resume
  | .leave => .halt

/-- What follows the statement; `next` is the offset behind it. -/
def Statement.Continues (statement : Statement) (machine : Machine) (next : Nat) (flow : Flow) : Prop :=
  match statement.instruction with
  | .stop => flow = .halt
  | .branch => ∃ target offset, statement.operands = [target] ∧
      target.read machine.registers machine.ram = .ok offset ∧ 0 ≤ offset.toInt ∧
      flow = .goto offset.toInt.toNat
  | _ => flow = .goto next

theorem Statement.perform_branches (h : statement.instruction = .branch) :
    Yields (statement.perform next depth) (fun transfer _ => ∃ target offset,
      statement.operands = [target] ∧
        target.read session.machine.registers session.machine.ram = .ok offset ∧ 0 ≤ offset.toInt ∧
        transfer.flow = .goto offset.toInt.toNat) (fun _ _ => True) session := by
  obtain ⟨_, condition, operands, arity⟩ := statement
  subst h
  obtain ⟨target, rfl⟩ := List.length_eq_one_iff.mp arity
  refine perform_branch_target.mono ?_ fun _ _ _ => trivial
  rintro _ _ ⟨offset, hsign, rfl, hoffset⟩
  exact ⟨target, offset, rfl, hoffset, hsign, rfl⟩

theorem Statement.continues_of_ok {transfer : Transfer} {after : Session}
    (h : statement.perform next depth session = .ok transfer after) :
    statement.Continues session.machine next transfer.flow := by
  have hpasses := (statement.perform_passes next depth session).of_ok h
  unfold Statement.Continues
  split
  case h_1 hstop =>
    rw [hstop] at hpasses
    cases transfer with
    | leave => rfl
    | goto offset => exact absurd rfl hpasses.1
    | call start length resume => cases hpasses.1
  case h_2 hbranch => exact (perform_branches hbranch).of_ok h
  case h_3 hstop hbranch =>
    cases transfer with
    | leave => exact absurd hpasses hstop
    | goto offset => rw [Transfer.flow, hpasses.2 hbranch]
    | call start length resume => rw [Transfer.flow, hpasses.2]

end Perform

namespace Attempt

variable {attempt : Attempt} {statement : Statement}

theorem confined_of_completed? (h : attempt.completed? = some statement) :
    statement.Confined attempt.before attempt.after := by
  obtain ⟨transfer, session, hperform, hsession⟩ := perform_of_completed? h
  have hconfined := Statement.confined_of_ok hperform
  rw [hsession]
  exact hconfined

/-- Only a comparison that completes changes the flag. -/
theorem compare_eq_of_completes (h : attempt.completes .compare = false) :
    attempt.after.registers.compare = attempt.before.registers.compare := by
  cases hcompleted : attempt.completed? with
  | none => exact congrArg Registers.compare (mayReceive_of_completed?_eq_none hcompleted).same.1
  | some statement =>
    refine (confined_of_completed? hcompleted).compare fun hcompare => ?_
    rw [completes_iff.mpr ⟨statement, hcompleted, hcompare⟩] at h
    cases h

theorem exists_compares_of_completes (h : attempt.completes .compare = true) :
    ∃ a b, attempt.Compares a b := by
  obtain ⟨⟨_, condition, operands, arity⟩, hcompleted, rfl⟩ := completes_iff.mp h
  obtain ⟨left, right, rfl⟩ := List.length_eq_two.mp arity
  obtain ⟨transfer, session, hperform, -⟩ := perform_of_completed? hcompleted
  obtain ⟨a, b, ha, hb⟩ := Statement.perform_compares.of_ok hperform
  refine ⟨a, b, left, right, h, ?_, ha, hb⟩
  rw [(completed?_eq_some.mp hcompleted).2]
  rfl

end Attempt

/-- The flag is what the last comparison has found, or what it was if nothing was compared. -/
inductive FlagOfLast (start : Machine) (attempts : List Attempt) (final : Machine) : Prop
  | initial (none : ∀ attempt ∈ attempts, attempt.completes .compare = false)
      (flag : final.registers.compare = start.registers.compare)
  | compared {front back : List Attempt} {last : Attempt} {a b : Int32}
      (split : attempts = front ++ last :: back) (compares : last.Compares a b)
      (later : ∀ attempt ∈ back, attempt.completes .compare = false)
      (flag : final.registers.compare = a - b)

theorem FlagOfLast.concat {start : Machine} {attempts : List Attempt} {attempt : Attempt}
    (h : FlagOfLast start attempts attempt.before) :
    FlagOfLast start (attempts ++ [attempt]) attempt.after := by
  cases hcompletes : attempt.completes .compare with
  | true =>
    obtain ⟨a, b, hcompares⟩ := Attempt.exists_compares_of_completes hcompletes
    exact .compared rfl hcompares (fun _ hnone => nomatch hnone) hcompares.compare_eq
  | false =>
    have hkept := Attempt.compare_eq_of_completes hcompletes
    have hmore {others : List Attempt} (hothers : ∀ other ∈ others, other.completes .compare = false) :
        ∀ other ∈ others ++ [attempt], other.completes .compare = false :=
      List.forall_mem_append.mpr ⟨hothers, List.forall_mem_singleton.mpr hcompletes⟩
    cases h with
    | initial none flag => exact .initial (hmore none) (hkept.trans flag)
    | @compared front back last a b split compares later flag =>
      have hsplit : attempts ++ [attempt] = front ++ last :: (back ++ [attempt]) := by
        rw [split, List.append_assoc, List.cons_append]
      exact .compared hsplit compares (hmore later) (hkept.trans flag)

theorem History.flagOfLast {start final : Machine} {attempts : List Attempt} {failure : Option Failure}
    (h : History start attempts final failure) : FlagOfLast start attempts final := by
  induction h with
  | nil => exact .initial (fun _ hnone => nomatch hnone) rfl
  | concat _ ih => exact ih.concat

section Alone

variable {bytes : Bytes} {offset depth : Nat} {machine : Machine} {session : Session}
  {instruction : Instruction} {condition : Condition}

/-- Where something comes next there is a whole statement. -/
theorem Code.liesAt_of_upcoming {upcoming : Upcoming}
    (h : (Code.image bytes).upcoming offset machine = .ok upcoming) :
    ∃ instruction condition, Instruction.LiesAt instruction condition bytes offset := by
  obtain ⟨header, hheader, h⟩ := bind_eq_ok.mp h
  obtain ⟨⟨instruction, condition⟩, hdecoded, h⟩ := bind_eq_ok.mp h
  obtain ⟨body, hbody, -⟩ := bind_eq_ok.mp h
  have hlength := instruction.headerSize_le_length
  unfold Code.fetch at hheader hbody
  split at hheader
  · cases hheader
  next hlong =>
  split at hbody
  · cases hbody
  next hwhole =>
  rw [Code.size] at hlong hwhole
  rw [Statement.headerSize] at hlong hlength
  cases hheader
  exact ⟨instruction, condition, hdecoded, by omega⟩

theorem Statement.decode_of_decodeBody {statement : Statement} (h : instruction.LiesAt condition bytes offset)
    (hbody : Statement.decodeBody instruction condition (bytes.window offset instruction.length) =
      .ok statement) : Statement.decode (bytes.window offset instruction.length) = .ok statement := by
  have hlength := Bytes.length_window h.inside
  have hwhole : ¬((bytes.window offset instruction.length).take instruction.length).length <
      instruction.length := by
    rw [List.length_take, hlength, Nat.min_self]
    exact Nat.lt_irrefl _
  refine bind_eq_ok.mpr ⟨(instruction, condition), ?_, (if_neg hwhole).trans hbody⟩
  rw [← Statement.decodeHeader_take, Bytes.take_window instruction.headerSize_le_length, h.header]

/-- A statement on its own that has not failed has come through, and gone on where it was to. -/
theorem Engine.ofStatement_of_failure_eq_none {code : Code}
    (h : (Engine.ofStatement session code offset).1.failure = none) :
    ∃ transfer after, code.executeAt offset 0 session = .ok transfer after ∧
      (Engine.ofStatement session code offset).1.session = after ∧
      (Engine.ofStatement session code offset).2 = transfer.flow ∧
      ((∀ start length resume, transfer ≠ .call start length resume) →
        (Engine.ofStatement session code offset).1.done = true) := by
  unfold Engine.ofStatement at h ⊢
  cases hx : code.executeAt offset 0 session with
  | error fault after =>
    rw [hx] at h
    cases h
  | ok transfer after =>
    refine ⟨transfer, after, rfl, ?_⟩
    cases transfer with
    | call start length resume => exact ⟨rfl, rfl, fun hno => absurd rfl (hno start length resume)⟩
    | goto | leave => exact ⟨rfl, rfl, fun _ => rfl⟩

/-- A statement that is skipped changes nothing. -/
theorem Engine.ofStatement_of_not_holds (h : instruction.LiesAt condition bytes offset)
    (hholds : condition.holds session.machine.registers.compare = false) :
    let alone := Engine.ofStatement session (.image bytes) offset
    alone.1.done = true ∧ alone.1.session.machine = session.machine ∧
      alone.2 = .goto (offset + instruction.length) := by
  have hupcoming : (Code.image bytes).upcoming offset session.machine = _ := Code.upcoming_of_liesAt h
  rw [if_neg (by simp [hholds])] at hupcoming
  rw [ofStatement, Code.executeAt_of_skip hupcoming]
  exact ⟨rfl, rfl, rfl⟩

/-- A statement that takes effect without a failure is confined, and goes on where its instruction says. -/
theorem Engine.ofStatement_of_holds (h : instruction.LiesAt condition bytes offset)
    (hholds : condition.holds session.machine.registers.compare = true) (hinstruction : instruction ≠ .execute)
    (hfailure : (Engine.ofStatement session (.image bytes) offset).1.failure = none) :
    let alone := Engine.ofStatement session (.image bytes) offset
    ∃ statement, Statement.decode (bytes.window offset instruction.length) = .ok statement ∧
      statement.instruction = instruction ∧ alone.1.done = true ∧
      statement.Confined session.machine alone.1.session.machine ∧
      statement.Continues session.machine (offset + instruction.length) alone.2 := by
  intro alone
  obtain ⟨transfer, after, hx, hsession, hflow, hdone⟩ := ofStatement_of_failure_eq_none hfailure
  have hupcoming : (Code.image bytes).upcoming offset session.machine = _ := Code.upcoming_of_liesAt h
  rw [if_pos hholds, Instruction.reads, if_pos hholds] at hupcoming
  cases hbody : Statement.decodeBody instruction condition (bytes.window offset instruction.length) with
  | error fault =>
    rw [hbody] at hupcoming
    rw [Code.executeAt_of_error hupcoming] at hx
    cases hx
  | ok statement =>
    rw [hbody] at hupcoming
    rw [Code.executeAt_of_execute hupcoming] at hx
    obtain rfl := Statement.instruction_of_decodeBody hbody
    have hconfined := Statement.confined_of_ok hx
    have hcontinues := Statement.continues_of_ok hx
    have hpasses := (statement.perform_passes _ _ _).of_ok hx
    refine ⟨statement, Statement.decode_of_decodeBody h hbody, rfl, hdone ?_, hsession ▸ hconfined,
      hflow ▸ hcontinues⟩
    rintro _ _ _ rfl
    exact hinstruction hpasses.1

end Alone

/--
A statement that is executed on its own and does not fail is one of the image. If its condition does not hold it
changes nothing, and the next one is that behind it. If it holds, the statement changes what its instruction names
and nothing else, and stops, branches or goes on as it says. This is so for every statement that completes in a
run, at any depth, and the flag is always the difference found by the last of them that compares; a machine
that was just configured has it at zero.
-/
theorem Request.statements_confined :
    (∀ (session : Session) (bytes : Bytes) (offset : Nat),
      let alone := Engine.ofStatement session (.image bytes) offset
      alone.1.failure = none → ∃ instruction condition, Instruction.LiesAt instruction condition bytes offset ∧
        (condition.holds session.machine.registers.compare = false →
          alone.1.done = true ∧ alone.1.session.machine = session.machine ∧
            alone.2 = .goto (offset + instruction.length)) ∧
        (condition.holds session.machine.registers.compare = true → instruction ≠ .execute →
          ∃ statement, Statement.decode (bytes.window offset instruction.length) = .ok statement ∧
            statement.instruction = instruction ∧ alone.1.done = true ∧
            statement.Confined session.machine alone.1.session.machine ∧
            statement.Continues session.machine (offset + instruction.length) alone.2)) ∧
    (∀ (request : Request) (session : Session) (count : Nat),
      (∀ attempt ∈ request.attempts session count, ∀ statement, attempt.completed? = some statement →
        statement.Confined attempt.before attempt.after) ∧
      FlagOfLast session.machine (request.attempts session count)
        (request.reached session count).session.machine) ∧
    ∀ config disk console, (Machine.ofConfig config disk console).registers.compare = 0 := by
  refine ⟨?alone, ?run, fun _ _ _ => rfl⟩
  case alone =>
    intro session bytes offset alone hfailure
    obtain ⟨transfer, after, hx, -⟩ := Engine.ofStatement_of_failure_eq_none hfailure
    cases hupcoming : (Code.image bytes).upcoming offset session.machine with
    | error fault =>
      rw [Code.executeAt_of_error hupcoming] at hx
      cases hx
    | ok upcoming =>
      obtain ⟨instruction, condition, hlies⟩ := Code.liesAt_of_upcoming hupcoming
      exact ⟨instruction, condition, hlies, Engine.ofStatement_of_not_holds hlies,
        fun hholds hinstruction => Engine.ofStatement_of_holds hlies hholds hinstruction hfailure⟩
  case run =>
    intro request session count
    exact ⟨fun attempt _ statement hcompleted => Attempt.confined_of_completed? hcompleted,
      (request.history session count).flagOfLast⟩

/-- A machine whose RAM holds a comparison of 1 with 4, and whose register points into it. -/
def comparing : Session :=
  .ofMachine {
    registers := ⟨#[2], 0⟩
    ram := ⟨.ram, #[0x0C, 0, 3, 0, 0, 0, 1, 3, 0, 0, 0, 4]⟩
    disk := .ofBytes "" #[]
    console := .ofInput [9]
    maxDepth := 1 }

/-- A byte is received into RAM. In a run two numbers are compared, and then two more by a nested stream. -/
theorem Request.statements_confined_comparing :
    let receives : Bytes := #[0x07, 0, 1, 0, 0, 0, 0]
    let request := Request.run #[0x0C, 0, 3, 0, 0, 0, 5, 3, 0, 0, 0, 2, 0x10, 0, 3, 0, 0, 0, 0, 3, 0, 0, 0, 12]
    (∃ statement : Statement, statement.instruction = .receive ∧ statement.Confined comparing.machine
      (Engine.ofStatement comparing (.image receives) 0).1.session.machine) ∧
    (∃ compare execute nested, request.attempts comparing 3 = [compare, execute, nested] ∧
      nested.depth = 1 ∧ ∃ statement, nested.completed? = some statement ∧
        statement.Confined nested.before nested.after) ∧
    FlagOfLast comparing.machine (request.attempts comparing 3)
      (request.reached comparing 3).session.machine ∧
    (request.reached comparing 3).session.machine.registers.compare = -3 := by
  intro receives request
  obtain ⟨halone, hrun, -⟩ := statements_confined
  obtain ⟨hconfined, hflag⟩ := hrun request comparing 3
  refine ⟨?_, ?_, hflag, by decide +kernel⟩
  · obtain ⟨instruction, condition, hlies, -, hholds⟩ := halone comparing receives 0 (by decide +kernel)
    have hheader : Statement.decodeHeader (Bytes.window receives 0 Statement.headerSize) =
        .ok (.receive, .always) := by decide +kernel
    obtain ⟨rfl, rfl⟩ := Prod.mk.inj (Except.ok.inj (hheader.symm.trans hlies.header))
    obtain ⟨statement, -, hinstruction, -, hreceives, -⟩ := hholds rfl (by decide)
    exact ⟨statement, hinstruction, hreceives⟩
  · have hfacts : (request.attempts comparing 3).map (fun attempt => (attempt.depth,
        attempt.completed?.map (·.instruction))) =
        [(0, some .compare), (0, some .execute), (1, some .compare)] := by decide +kernel
    simp only [List.map_eq_cons_iff, List.map_eq_nil_iff, Prod.mk.injEq] at hfacts
    obtain ⟨compare, _, hattempts, -, execute, _, rfl, -, nested, _, rfl, ⟨hdepth, hnested⟩, rfl⟩ := hfacts
    obtain ⟨statement, hcompleted, -⟩ := Option.map_eq_some_iff.mp hnested
    refine ⟨compare, execute, nested, hattempts, hdepth, statement, hcompleted, ?_⟩
    exact hconfined nested (by simp [hattempts]) statement hcompleted

end Microcomputer
