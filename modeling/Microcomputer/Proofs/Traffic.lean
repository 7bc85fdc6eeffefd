import Microcomputer.Proofs.Failing
import Microcomputer.Proofs.History
import Microcomputer.Proofs.Storage

/-!
# Console traffic

The bytes that a run takes from the console are the values that its completed statements have received and
stored, and the bytes that it gives to the console are those that its completed statements have sent. Only a
statement that fails to store what it has received loses a byte, and it is the last of its run.
-/
namespace Microcomputer

/-- The value that a byte is received as. -/
def byteValue (byte : UInt8) : Int32 :=
  Int32.ofNat byte.toNat

/-- The byte that is sent for a value: the remainder by 256. -/
def lowByte (value : Int32) : UInt8 :=
  UInt8.ofNat (value.toInt % 256).toNat

theorem toUInt8_toUInt32 (value : Int32) : value.toUInt32.toUInt8 = lowByte value := by
  have hword : value.toUInt32.toNat = value.toBitVec.toNat := rfl
  have hvalue : value.toInt = value.toBitVec.toInt := rfl
  have hrange := value.toBitVec.isLt
  rw [BitVec.toInt_eq_toNat_cond] at hvalue
  apply UInt8.toNat_inj.mp
  rw [lowByte, UInt32.toNat_toUInt8, hword, UInt8.toNat_ofNat']
  split at hvalue <;> omega

namespace Execution

variable {session : Session}

theorem observe_input (session : Session) :
    observe (fun machine => .ok machine.console.input) session = .ok session.machine.console.input session :=
  rfl

theorem receive_of_byte {byte : UInt8} {rest : List UInt8}
    (h : session.machine.console.input = byte :: rest) :
    receive session =
      .ok (byteValue byte) { session with machine := session.machine.withInput rest } := by
  refine (bind_ok (observe_input session)).trans ?_
  rw [h]
  rfl

theorem receive_of_end (h : session.machine.console.input = [])
    (hend : session.machine.console.atEnd = .ok ()) :
    receive session = .ok (-1) (session.note .inputExhausted) := by
  have hmapped : session.machine.console.atEnd.mapError Fault.console = .ok () := by rw [hend]; rfl
  refine (bind_ok (observe_input session)).trans ?_
  rw [h]
  exact bind_ok (observe_ok hmapped)

theorem receive_of_error {cause : StreamError} (h : session.machine.console.input = [])
    (hend : session.machine.console.atEnd = .error cause) :
    receive session = .error (.console cause) session := by
  have hmapped : session.machine.console.atEnd.mapError Fault.console = .error (.console cause) := by
    rw [hend]
    rfl
  refine (bind_ok (observe_input session)).trans ?_
  rw [h]
  exact bind_error (observe_error hmapped)

theorem send_of_room {value : Int32} (h : session.machine.console.hasRoom = true) :
    send value session = .ok () { session with machine :=
      { session.machine with console := session.machine.console.push (lowByte value) } } := by
  rw [← toUInt8_toUInt32]
  exact bind_ok (observe_ok (if_pos h))

theorem send_of_full {value : Int32} (h : session.machine.console.hasRoom = false) :
    send value session = .error (.console session.machine.console.writeError) session :=
  bind_error (observe_error (if_neg (by simp [h])))

end Execution

section Perform

open Execution

variable {condition : Condition} {operand : Operand} {next depth : Nat} {session middle : Session}
  {value : Int32} {fault : Fault}

theorem Statement.perform_receive_of_write {arity : [operand].length = Instruction.arity .receive}
    {registers : Registers} {ram : Memory} (hreceive : receive session = .ok value middle)
    (hwrite : operand.write middle.machine.registers middle.machine.ram value = .ok (registers, ram)) :
    (⟨.receive, condition, [operand], arity⟩ : Statement).perform next depth session =
      .ok (.goto next)
        { middle with machine := { middle.machine with registers := registers, ram := ram } } :=
  (bind_ok hreceive).trans (bind_ok (store_of_write hwrite))

theorem Statement.perform_receive_of_unwritten {arity : [operand].length = Instruction.arity .receive}
    (hreceive : receive session = .ok value middle)
    (hwrite : operand.write middle.machine.registers middle.machine.ram value = .error fault) :
    (⟨.receive, condition, [operand], arity⟩ : Statement).perform next depth session =
      .error fault middle :=
  (bind_ok hreceive).trans (bind_error (store_of_error hwrite))

theorem Statement.perform_send {arity : [operand].length = Instruction.arity .send}
    (hread : operand.read session.machine.registers session.machine.ram = .ok value) :
    (⟨.send, condition, [operand], arity⟩ : Statement).perform next depth session =
      (send value >>= fun _ => pure (.goto next)) session :=
  bind_ok (observe_ok hread)

end Perform

namespace Attempt

/-- The statement has stored `value` to its only operand. -/
def Stores (attempt : Attempt) (value : Int32) : Prop :=
  ∃ target, attempt.statement?.map (·.operands) = some [target] ∧ attempt.StoresInto target value

/-- The only operand of the statement reads as `value`. -/
def Sends (attempt : Attempt) (value : Int32) : Prop :=
  ∃ source, attempt.statement?.map (·.operands) = some [source] ∧
    source.read attempt.before.registers attempt.before.ram = .ok value

/-- The statement has received `byte` and has failed to store it. -/
structure Drops (attempt : Attempt) (byte : UInt8) : Prop where
  receives : attempt.statement?.map (·.instruction) = some .receive
  taken : attempt.before.console.input = byte :: attempt.after.console.input
  unstored : ∃ target fault, attempt.statement?.map (·.operands) = some [target] ∧
    target.write attempt.before.registers attempt.before.ram (byteValue byte) = .error fault ∧
    attempt.failure? = some ⟨fault, attempt.offset, attempt.depth⟩

/-- What a statement may do with the console. -/
inductive Trades (attempt : Attempt) : Prop
  /-- It receives a byte and stores it. -/
  | received (byte : UInt8) (completes : attempt.completes .receive = true)
      (taken : attempt.before.console.input = byte :: attempt.after.console.input)
      (silent : attempt.after.console.output = attempt.before.console.output)
      (stores : attempt.Stores (byteValue byte))
  /-- It finds no byte, and stores that there is none. -/
  | ended (completes : attempt.completes .receive = true)
      (spent : attempt.before.console.input = [] ∧ attempt.after.console.input = [])
      (silent : attempt.after.console.output = attempt.before.console.output)
      (stores : attempt.Stores (-1))
  | dropped (byte : UInt8) (failed : attempt.completed? = none) (drops : attempt.Drops byte)
      (silent : attempt.after.console.output = attempt.before.console.output)
  | sent (value : Int32) (completes : attempt.completes .send = true) (sends : attempt.Sends value)
      (pushed : attempt.after.console = attempt.before.console.push (lowByte value))
  /-- It does nothing with the console. -/
  | idle (receives : attempt.completes .receive = false) (sends : attempt.completes .send = false)
      (same : attempt.after.console = attempt.before.console)

section Trades

variable {attempt : Attempt} {statement : Statement}

section Receive

open Execution

variable {condition : Condition} {target : Operand} {arity : [target].length = Instruction.arity .receive}

theorem trades_of_byte {byte : UInt8} {rest : List UInt8}
    (h : attempt.statement? = some ⟨.receive, condition, [target], arity⟩)
    (hinput : attempt.before.console.input = byte :: rest) : attempt.Trades := by
  have hout := outcome_of_statement? h
  have hoperands : attempt.statement?.map (·.operands) = some [target] := by rw [h]; rfl
  cases hwrite : target.write attempt.before.registers attempt.before.ram (byteValue byte) with
  | ok written =>
    obtain ⟨registers, ram⟩ := written
    have ho := hout.trans (Statement.perform_receive_of_write (receive_of_byte hinput) hwrite)
    have hafter := (after_of_ok ho).1
    refine .received byte (completes_of_ok h ho) ?_ ?_ ⟨target, hoperands, storesInto_of_write hwrite hafter⟩
    · rw [hafter]
      exact hinput
    · rw [hafter]
      rfl
  | error fault =>
    have ho := hout.trans (Statement.perform_receive_of_unwritten (receive_of_byte hinput) hwrite)
    obtain ⟨hafter, hfailure⟩ := after_of_error ho
    refine .dropped byte (completed?_of_error ho)
      ⟨by rw [h]; rfl, ?_, target, fault, hoperands, hwrite, hfailure⟩ ?_
    · rw [hafter]
      exact hinput
    · rw [hafter]
      rfl

theorem trades_of_no_byte (h : attempt.statement? = some ⟨.receive, condition, [target], arity⟩)
    (hinput : attempt.before.console.input = []) : attempt.Trades := by
  have hout := outcome_of_statement? h
  have hoperands : attempt.statement?.map (·.operands) = some [target] := by rw [h]; rfl
  cases hend : attempt.before.console.atEnd with
  | error cause =>
    have ho := hout.trans (bind_error (receive_of_error hinput hend))
    refine .idle (completes_of_error ho _) (completes_of_error ho _) ?_
    rw [(after_of_error ho).1]
    rfl
  | ok _ =>
    cases hwrite : target.write attempt.before.registers attempt.before.ram (-1) with
    | ok written =>
      obtain ⟨registers, ram⟩ := written
      have ho := hout.trans (Statement.perform_receive_of_write (receive_of_end hinput hend) hwrite)
      have hafter := (after_of_ok ho).1
      refine .ended (completes_of_ok h ho) ⟨hinput, ?_⟩ ?_
        ⟨target, hoperands, storesInto_of_write hwrite hafter⟩
      · rw [hafter]
        exact hinput
      · rw [hafter]
        rfl
    | error fault =>
      have ho := hout.trans (Statement.perform_receive_of_unwritten (receive_of_end hinput hend) hwrite)
      refine .idle (completes_of_error ho _) (completes_of_error ho _) ?_
      rw [(after_of_error ho).1]
      rfl

end Receive

open Execution in
theorem trades_of_send {condition : Condition} {source : Operand}
    {arity : [source].length = Instruction.arity .send}
    (h : attempt.statement? = some ⟨.send, condition, [source], arity⟩) : attempt.Trades := by
  have hout := outcome_of_statement? h
  have hidle {fault : Fault} {session : Session} (ho : attempt.outcome = .error fault session)
      (hsame : session.machine = attempt.before) : attempt.Trades := by
    refine .idle (completes_of_error ho _) (completes_of_error ho _) ?_
    rw [(after_of_error ho).1, hsame]
  cases hread : source.read attempt.before.registers attempt.before.ram with
  | error fault => exact hidle (hout.trans (bind_error (observe_error hread))) rfl
  | ok value =>
    have hsent := hout.trans (Statement.perform_send hread)
    cases hroom : attempt.before.console.hasRoom with
    | false => exact hidle (hsent.trans (bind_error (send_of_full hroom))) rfl
    | true =>
      have ho := hsent.trans (bind_ok (send_of_room hroom))
      refine .sent value (completes_of_ok h ho) ⟨source, by rw [h]; rfl, hread⟩ ?_
      rw [(after_of_ok ho).1]
      rfl

/-- Every statement does one of these things with the console. -/
theorem trades (attempt : Attempt) : attempt.Trades := by
  cases h : attempt.statement? with
  | none =>
    have hfailed : attempt.completed? = none := by
      cases hc : attempt.completed? with
      | none => rfl
      | some statement => rw [(completed?_eq_some.mp hc).2] at h; cases h
    have hnone := completes_of_completed?_eq_none hfailed
    refine .idle (hnone _) (hnone _) ?_
    rw [after_of_statement?_eq_none h]
  | some statement =>
    by_cases hreceive : statement.instruction = .receive
    · obtain ⟨_, condition, operands, arity⟩ := statement
      subst hreceive
      obtain ⟨target, rfl⟩ := List.length_eq_one_iff.mp arity
      cases hinput : attempt.before.console.input with
      | cons byte rest => exact trades_of_byte h hinput
      | nil => exact trades_of_no_byte h hinput
    by_cases hsend : statement.instruction = .send
    · obtain ⟨_, condition, operands, arity⟩ := statement
      subst hsend
      obtain ⟨source, rfl⟩ := List.length_eq_one_iff.mp arity
      exact trades_of_send h
    have hother (instruction : Instruction) (hne : statement.instruction ≠ instruction) :
        attempt.completes instruction = false := by
      refine completes_eq_false fun found hfound => ?_
      obtain rfl := Option.some.inj (h.symm.trans (completed?_eq_some.mp hfound).2)
      exact hne
    refine .idle (hother _ hreceive) (hother _ hsend) (view_eq_of_keeps h fun next depth => ?_)
    exact statement.perform_keeps (fun _ _ _ _ => rfl) (fun _ _ _ _ => rfl) (fun _ _ _ => rfl)
      (fun hi => absurd hi hreceive) (fun hi => absurd hi hsend) (fun _ _ _ _ => rfl) next depth

end Trades
end Attempt

/--
The bytes that the attempts have taken from the console. Those in `kept` are what the completed statements
that receive have stored, and the next `ended` of these statements have stored that there is none.
-/
structure Takes (start : Machine) (attempts : List Attempt) (final : Machine) (failure : Option Failure)
    (kept : List UInt8) (ended : Nat) (lost : Option UInt8) : Prop where
  taken : start.console.input = kept ++ lost.toList ++ final.console.input
  stored : List.Forall₂ Attempt.Stores (attempts.filter (Attempt.completes .receive))
    (kept.map byteValue ++ List.replicate ended (-1))
  spent : 0 < ended → lost = none ∧ final.console.input = []
  dropped : ∀ byte ∈ lost, ∃ last ∈ attempts.getLast?, last.Drops byte ∧ failure = last.failure?

/-- The bytes that the attempts have given to the console are the low ones of the values that were sent. -/
structure Gives (start : Machine) (attempts : List Attempt) (final : Machine) (values : List Int32) :
    Prop where
  sent : List.Forall₂ Attempt.Sends (attempts.filter (Attempt.completes .send)) values
  given : final.console.output.toList = start.console.output.toList ++ values.map lowByte

namespace Takes

variable {start : Machine} {attempts : List Attempt} {attempt : Attempt} {kept : List UInt8} {ended : Nat}
  {lost : Option UInt8}

theorem nil : Takes start [] start none [] 0 none where
  taken := rfl
  stored := .nil
  spent := fun h => absurd h (Nat.lt_irrefl 0)
  dropped := fun _ h => nomatch h

/-- Only a history that has failed can have lost a byte. -/
theorem lost_eq_none {final : Machine} (h : Takes start attempts final none kept ended lost) :
    lost = none := by
  cases lost with
  | none => rfl
  | some byte =>
    obtain ⟨last, -, hdrops, hfailure⟩ := h.dropped byte rfl
    obtain ⟨_, _, _, _, hfailed⟩ := hdrops.unstored
    rw [hfailed] at hfailure
    cases hfailure

theorem concat_received {byte : UInt8}
    (h : Takes start attempts attempt.before none kept ended none)
    (completes : attempt.completes .receive = true)
    (taken : attempt.before.console.input = byte :: attempt.after.console.input)
    (stores : attempt.Stores (byteValue byte)) :
    Takes start (attempts ++ [attempt]) attempt.after attempt.failure? (kept ++ [byte]) 0 none where
  taken := by
    rw [h.taken, taken]
    simp
  stored := by
    have hended : ended = 0 := Nat.eq_zero_of_not_pos fun hpos => by
      have hspent := (h.spent hpos).2
      simp [taken] at hspent
    have hstored := h.stored
    rw [hended, List.replicate_zero, List.append_nil] at hstored
    rw [List.filter_append, List.filter_singleton, completes, List.map_append, List.replicate_zero,
      List.append_nil]
    exact List.rel_append hstored (.cons stores .nil)
  spent := fun hpos => absurd hpos (Nat.lt_irrefl 0)
  dropped := fun _ hlost => nomatch hlost

theorem concat_ended (h : Takes start attempts attempt.before none kept ended none)
    (completes : attempt.completes .receive = true)
    (before : attempt.before.console.input = []) (after : attempt.after.console.input = [])
    (stores : attempt.Stores (-1)) :
    Takes start (attempts ++ [attempt]) attempt.after attempt.failure? kept (ended + 1) none where
  taken := by rw [h.taken, before, after]
  stored := by
    rw [List.filter_append, List.filter_singleton, completes, List.replicate_succ', ← List.append_assoc]
    exact List.rel_append h.stored (.cons stores .nil)
  spent := fun _ => ⟨rfl, after⟩
  dropped := fun _ hlost => nomatch hlost

theorem concat_dropped {byte : UInt8} (h : Takes start attempts attempt.before none kept ended none)
    (failed : attempt.completes .receive = false) (drops : attempt.Drops byte) :
    Takes start (attempts ++ [attempt]) attempt.after attempt.failure? kept ended (some byte) where
  taken := by
    rw [h.taken, drops.taken]
    simp
  stored := by
    rw [List.filter_append, List.filter_singleton, failed]
    simpa using h.stored
  spent := fun hpos => by
    have hspent := (h.spent hpos).2
    simp [drops.taken] at hspent
  dropped := by
    rintro _ ⟨⟩
    exact ⟨attempt, by simp, drops, rfl⟩

theorem concat_other (h : Takes start attempts attempt.before none kept ended none)
    (other : attempt.completes .receive = false)
    (same : attempt.after.console.input = attempt.before.console.input) :
    Takes start (attempts ++ [attempt]) attempt.after attempt.failure? kept ended none where
  taken := by rw [h.taken, same]
  stored := by
    rw [List.filter_append, List.filter_singleton, other]
    simpa using h.stored
  spent := fun hpos => ⟨rfl, same.trans (h.spent hpos).2⟩
  dropped := fun _ hlost => nomatch hlost

end Takes

namespace History

variable {start final : Machine} {attempts : List Attempt} {failure : Option Failure}

theorem takes (h : History start attempts final failure) :
    ∃ kept ended lost, Takes start attempts final failure kept ended lost := by
  induction h with
  | nil => exact ⟨[], 0, none, .nil⟩
  | @concat attempts attempt _ ih =>
    obtain ⟨kept, ended, lost, htakes⟩ := ih
    obtain rfl := htakes.lost_eq_none
    cases attempt.trades with
    | received byte completes taken _ stores =>
      exact ⟨kept ++ [byte], 0, none, htakes.concat_received completes taken stores⟩
    | ended completes spent _ stores =>
      exact ⟨kept, ended + 1, none, htakes.concat_ended completes spent.1 spent.2 stores⟩
    | dropped byte failed drops _ =>
      have hfailed := Attempt.completes_of_completed?_eq_none failed .receive
      exact ⟨kept, ended, some byte, htakes.concat_dropped hfailed drops⟩
    | sent value completes _ pushed =>
      have hother : attempt.completes .receive = false := Attempt.completes_of_ne completes (by decide)
      exact ⟨kept, ended, none, htakes.concat_other hother (by rw [pushed]; rfl)⟩
    | idle receives _ same => exact ⟨kept, ended, none, htakes.concat_other receives (by rw [same])⟩

theorem gives (h : History start attempts final failure) : ∃ values, Gives start attempts final values := by
  induction h with
  | nil => exact ⟨[], .nil, by simp⟩
  | @concat attempts attempt _ ih =>
    obtain ⟨values, sent, given⟩ := ih
    have hsilent (completes : attempt.completes .send = false)
        (silent : attempt.after.console.output = attempt.before.console.output) :
        ∃ values, Gives start (attempts ++ [attempt]) attempt.after values := by
      refine ⟨values, ?_, silent ▸ given⟩
      rw [List.filter_append, List.filter_singleton, completes]
      simpa using sent
    cases attempt.trades with
    | received _ completes _ silent _ => exact hsilent (Attempt.completes_of_ne completes (by decide)) silent
    | ended completes _ silent _ => exact hsilent (Attempt.completes_of_ne completes (by decide)) silent
    | dropped _ failed _ silent => exact hsilent (Attempt.completes_of_completed?_eq_none failed _) silent
    | sent value completes sends pushed =>
      refine ⟨values ++ [value], ?_, ?_⟩
      · rw [List.filter_append, List.filter_singleton, completes]
        exact List.rel_append sent (.cons sends .nil)
      · rw [pushed, Console.push, Array.toList_push, given, List.map_append, List.append_assoc]
        rfl
    | idle _ completes same => exact hsilent completes (by rw [same])

end History

/--
Whatever a machine is asked for and however far it has come: the bytes taken from the console are, in order,
the values stored by the completed statements that receive, and those of them that found the input over have
stored `-1`. A byte more is gone only if the last statement received it and has failed to store it. The bytes
given to the console are, in order, the low ones of the values of the completed statements that send.
-/
theorem Request.console_traffic (request : Request) (session : Session) (count : Nat) :
    (∃ kept ended lost, Takes session.machine (request.attempts session count)
      (request.reached session count).session.machine (request.reached session count).failure
      kept ended lost) ∧
    ∃ values, Gives session.machine (request.attempts session count)
      (request.reached session count).session.machine values := by
  have hhistory := request.history session count
  exact ⟨hhistory.takes, hhistory.gives⟩

/--
The byte that was lost is stored by no statement: what the completed statements have stored does not account
for it.
-/
theorem Request.console_byte_unaccounted :
    let request := Request.run #[0x07, 0, 3, 0, 0, 0, 0]
    let final := request.reached Engine.lostByte 1
    (request.engine Engine.lostByte).Settles final ∧ final.failure = some ⟨.constantWrite, 0, 0⟩ ∧
      ¬∃ (taken : List UInt8) (ended : Nat),
        Engine.lostByte.machine.console.input = taken ++ final.session.machine.console.input ∧
        List.Forall₂ Attempt.Stores
          ((request.attempts Engine.lostByte 1).filter (Attempt.completes .receive))
          (taken.map byteValue ++ List.replicate ended (-1)) := by
  intro request final
  refine ⟨⟨1, rfl, by decide +kernel⟩, by decide +kernel, ?_⟩
  rintro ⟨taken, ended, htaken, hstored⟩
  have hinput : final.session.machine.console.input = [] := by decide +kernel
  have hcount : ((request.attempts Engine.lostByte 1).filter (Attempt.completes .receive)).length = 0 := by
    decide +kernel
  have hlength := hstored.length_eq
  rw [hcount, List.length_append, List.length_map] at hlength
  have hnone : taken = [] := List.length_eq_zero_iff.mp (by omega)
  rw [hinput, hnone] at htaken
  cases htaken

end Microcomputer
