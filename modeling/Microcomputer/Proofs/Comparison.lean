import Microcomputer.Proofs.History

/-!
# Conditions after a comparison

A comparison leaves the difference of two numbers, wrapped to 32 bits, and a condition looks at the sign of
what it left. So a condition on equality is one on the numbers, and a condition on their order is as well, as
long as the difference fits. Where it does not fit it has the wrong sign, and an order is found to be the
opposite of what it is.
-/
namespace Microcomputer

namespace Condition

/-- What the condition says of two numbers that were compared. -/
def Relates (a b : Int) : Condition → Prop
  | always => True
  | equal => a = b
  | notEqual => a ≠ b
  | greater => a > b
  | notGreater => a ≤ b
  | less => a < b
  | notLess => a ≥ b

/-- The condition is on the order of the numbers, and not just on whether they are equal. -/
def asksOrder : Condition → Bool
  | greater | notGreater | less | notLess => true
  | always | equal | notEqual => false

/-- A condition compares the flag with zero. -/
theorem holds_iff {condition : Condition} {compare : Int32} :
    condition.holds compare = true ↔ condition.Relates compare.toInt 0 := by
  have hzero : (0 : Int32).toInt = 0 := rfl
  cases condition with
  | always => simp [holds, Relates]
  | equal => simp [holds, Relates, ← Int32.toInt_inj]
  | notEqual => simp [holds, Relates, ← Int32.toInt_inj]
  | greater => simp [holds, Relates, Int32.lt_iff_toInt_lt]
  | notGreater => simp [holds, Relates, Int32.le_iff_toInt_le]
  | less => simp [holds, Relates, Int32.lt_iff_toInt_lt]
  | notLess => simp [holds, Relates, Int32.le_iff_toInt_le]

/-- Two numbers are related as their difference is to zero. -/
theorem relates_sub {condition : Condition} {a b : Int} :
    condition.Relates (a - b) 0 ↔ condition.Relates a b := by
  cases condition <;> simp only [Relates] <;> omega

end Condition

/-- The difference of the numbers needs no more than 32 bits. -/
def DifferenceFits (a b : Int32) : Prop :=
  Int32.minValue.toInt ≤ a.toInt - b.toInt ∧ a.toInt - b.toInt ≤ Int32.maxValue.toInt

section Difference

variable {a b : Int32} {condition : Condition}

theorem toInt_sub_of_fits (h : DifferenceFits a b) : (a - b).toInt = a.toInt - b.toInt := by
  have hleast : Int32.minValue.toInt = -0x80000000 := rfl
  have hgreatest : Int32.maxValue.toInt = 0x7FFFFFFF := rfl
  unfold DifferenceFits at h
  rw [Int32.toInt_sub]
  exact Int.bmod_eq_of_le (by omega) (by omega)

/-- A difference that does not fit wraps to one of the other sign. -/
theorem toInt_sub_of_not_fits (h : ¬DifferenceFits a b) :
    (b.toInt < a.toInt ∧ (a - b).toInt < 0) ∨ (a.toInt < b.toInt ∧ 0 < (a - b).toInt) := by
  have hleast : Int32.minValue.toInt = -0x80000000 := rfl
  have hgreatest : Int32.maxValue.toInt = 0x7FFFFFFF := rfl
  have ha := a.minValue_le_toInt
  have ha' := a.toInt_le
  have hb := b.minValue_le_toInt
  have hb' := b.toInt_le
  unfold DifferenceFits at h
  rw [Int32.toInt_sub, Int.bmod_def]
  split <;> omega

theorem holds_sub_of_fits (h : DifferenceFits a b) :
    condition.holds (a - b) = true ↔ condition.Relates a.toInt b.toInt := by
  rw [Condition.holds_iff, toInt_sub_of_fits h, Condition.relates_sub]

/-- A wrapped difference is zero only if there is none. -/
theorem holds_sub_of_not_asksOrder (h : condition.asksOrder = false) :
    condition.holds (a - b) = true ↔ condition.Relates a.toInt b.toInt := by
  by_cases hfits : DifferenceFits a b
  · exact holds_sub_of_fits hfits
  · have hsign := toInt_sub_of_not_fits hfits
    rw [Condition.holds_iff]
    cases condition with
    | always => exact Iff.rfl
    | equal | notEqual => simp only [Condition.Relates]; omega
    | greater | notGreater | less | notLess => cases h

theorem holds_sub_of_not_fits (h : condition.asksOrder = true) (hfits : ¬DifferenceFits a b) :
    condition.holds (a - b) = true ↔ ¬condition.Relates a.toInt b.toInt := by
  have hsign := toInt_sub_of_not_fits hfits
  rw [Condition.holds_iff]
  cases condition with
  | greater | notGreater | less | notLess => simp only [Condition.Relates]; omega
  | always | equal | notEqual => cases h

end Difference

open Execution in
/-- A comparison of two numbers that can be read changes the flag and nothing else. -/
theorem Statement.perform_compare {condition : Condition} {left right : Operand} {a b : Int32}
    {arity : [left, right].length = Instruction.arity .compare} {next depth : Nat} {session : Session}
    (ha : left.read session.machine.registers session.machine.ram = .ok a)
    (hb : right.read session.machine.registers session.machine.ram = .ok b) :
    (⟨.compare, condition, [left, right], arity⟩ : Statement).perform next depth session =
      .ok (.goto next) (Session.note { session with machine := { session.machine with
        registers := { session.machine.registers with compare := a - b } } } (.computed a b (a - b))) :=
  (bind_ok (observe_ok ha)).trans (bind_ok (observe_ok hb))

/-- The first bytes of what can be fetched can be fetched too. -/
theorem Code.fetch_take {code : Code} {ram : Memory} {offset length count : Nat} {bytes : List UInt8}
    (h : code.fetch ram offset length = .ok bytes) (hcount : count ≤ length) :
    code.fetch ram offset count = .ok (bytes.take count) := by
  unfold fetch at h ⊢
  split at h
  · cases h
  · next henough =>
    rw [if_neg (by omega)]
    cases code with
    | image image =>
      cases h
      rw [Bytes.take_window hcount]
    | ram start size =>
      obtain ⟨first, hlocate, hbytes⟩ := bind_eq_ok.mp h
      obtain ⟨hfirst, hinside⟩ := Memory.locate_eq_ok_iff.mp hlocate
      cases hbytes
      refine bind_eq_ok.mpr ⟨first, Memory.locate_eq_ok_iff.mpr ⟨hfirst, by omega⟩, ?_⟩
      rw [Bytes.take_window hcount]
      rfl

namespace Attempt

/-- The statement completes, and has compared `a` with `b`. -/
def Compares (attempt : Attempt) (a b : Int32) : Prop :=
  ∃ left right, attempt.completes .compare = true ∧
    attempt.statement?.map (·.operands) = some [left, right] ∧
    left.read attempt.before.registers attempt.before.ram = .ok a ∧
    right.read attempt.before.registers attempt.before.ram = .ok b

/-- The bytes at the offset are those of the statement, whether or not it is executed. -/
def ComesTo (attempt : Attempt) (statement : Statement) : Prop :=
  ∃ bytes, attempt.code.fetch attempt.before.ram attempt.offset statement.length = .ok bytes ∧
    Statement.decode bytes = .ok statement

/-- The statement is executed. -/
structure TakesEffect (attempt : Attempt) (statement : Statement) : Prop where
  executes : attempt.statement? = some statement
  outcome : attempt.outcome = statement.perform (attempt.offset + statement.length) attempt.depth
    (attempt.session.note (.executed attempt.depth attempt.offset statement))

/-- The statement is skipped: nothing changes, and the next one is that behind it. -/
structure PassesOver (attempt : Attempt) (statement : Statement) : Prop where
  unexecuted : attempt.statement? = none
  outcome : attempt.outcome = .ok (.goto (attempt.offset + statement.length)) (attempt.session.note
    (.skipped attempt.depth attempt.offset statement.instruction statement.condition
      attempt.before.registers.compare))
  same : attempt.after = attempt.before

variable {attempt : Attempt} {statement : Statement} {a b : Int32}

theorem Compares.compare_eq (h : attempt.Compares a b) : attempt.after.registers.compare = a - b := by
  obtain ⟨left, right, hcompletes, hoperands, ha, hb⟩ := h
  obtain ⟨⟨_, condition, operands, arity⟩, hcompleted, rfl⟩ := completes_iff.mp hcompletes
  have hstatement := (completed?_eq_some.mp hcompleted).2
  rw [hstatement, Option.map_some, Option.some.injEq] at hoperands
  subst hoperands
  have ho := (outcome_of_statement? hstatement).trans (Statement.perform_compare ha hb)
  rw [(after_of_ok ho).1]
  rfl

/-- What comes next is the statement there, and the flag decides whether it is executed. -/
theorem ComesTo.upcoming (h : attempt.ComesTo statement) :
    attempt.code.upcoming attempt.offset attempt.before =
      .ok (if statement.condition.holds attempt.before.registers.compare then .execute statement
        else .skip statement.instruction statement.condition) := by
  obtain ⟨bytes, hfetch, hdecode⟩ := h
  obtain ⟨body, rfl, -, hoperands⟩ := Statement.decode_eq_ok.mp hdecode
  have hheader := Code.fetch_take hfetch statement.instruction.headerSize_le_length
  have hbody : Statement.decodeBody statement.instruction statement.condition
      (statement.instruction.code :: statement.condition.code :: body) = .ok statement :=
    bind_eq_ok.mpr ⟨_, hoperands, rfl⟩
  refine bind_eq_ok.mpr ⟨_, hheader, ?_⟩
  refine bind_eq_ok.mpr ⟨_, Statement.decodeHeader_eq_ok.mpr ⟨[], rfl⟩, ?_⟩
  refine bind_eq_ok.mpr ⟨_, hfetch, ?_⟩
  by_cases hholds : statement.condition.holds attempt.before.registers.compare = true
  · simp only [hholds, ↓reduceIte]
    exact bind_eq_ok.mpr ⟨_, hbody, rfl⟩
  · simp only [hholds, Bool.false_eq_true, ↓reduceIte]
    rfl

theorem ComesTo.takesEffect (h : attempt.ComesTo statement)
    (hholds : statement.condition.holds attempt.before.registers.compare = true) :
    attempt.TakesEffect statement := by
  have hupcoming := h.upcoming
  rw [if_pos hholds] at hupcoming
  have hstatement := statement?_eq_some.mpr hupcoming
  exact ⟨hstatement, outcome_of_statement? hstatement⟩

theorem ComesTo.passesOver (h : attempt.ComesTo statement)
    (hholds : ¬statement.condition.holds attempt.before.registers.compare = true) :
    attempt.PassesOver statement := by
  have hupcoming := h.upcoming
  rw [if_neg hholds] at hupcoming
  have hnone : attempt.statement? = none := by
    rw [statement?, hupcoming]
  exact ⟨hnone, Code.executeAt_of_skip hupcoming, after_of_statement?_eq_none hnone⟩

theorem ComesTo.takesEffect_iff (h : attempt.ComesTo statement) : attempt.TakesEffect statement ↔
    statement.condition.holds attempt.before.registers.compare = true := by
  refine ⟨fun heffect => ?_, h.takesEffect⟩
  by_contra hholds
  have hnone := (h.passesOver hholds).unexecuted
  rw [heffect.executes] at hnone
  cases hnone

end Attempt

/-- A statement finds the machine that the one before it left. -/
theorem History.before_eq_after {start final : Machine} {failure : Option Failure}
    {front back : List Attempt} {first second : Attempt}
    (h : History start (front ++ first :: second :: back) final failure) :
    second.before = first.after := by
  rw [← List.singleton_append, ← List.append_assoc] at h
  exact h.before_of_append_cons.of_concat.2.1

/--
Whether a statement takes effect after a comparison of `a` and `b`: if its condition holds of the two numbers,
as long as it asks only whether they are equal or their difference fits into 32 bits, and otherwise if it does
not hold of them. In a run the machine that the next statement finds is the one that the comparison left.
-/
theorem Request.conditions_after_comparison :
    (∀ (compare next : Attempt) (a b : Int32) (statement : Statement), compare.Compares a b →
      next.before = compare.after → next.ComesTo statement →
      (next.TakesEffect statement ∨ next.PassesOver statement) ∧
      (statement.condition.asksOrder = false ∨ DifferenceFits a b →
        (next.TakesEffect statement ↔ statement.condition.Relates a.toInt b.toInt)) ∧
      (statement.condition.asksOrder = true → ¬DifferenceFits a b →
        (next.TakesEffect statement ↔ ¬statement.condition.Relates a.toInt b.toInt))) ∧
    ∀ (request : Request) (session : Session) (count : Nat) (front back : List Attempt)
      (compare next : Attempt), request.attempts session count = front ++ compare :: next :: back →
      next.before = compare.after := by
  constructor
  · intro compare next a b statement hcompares hfollows hcomes
    have heffect := hcomes.takesEffect_iff
    rw [hfollows, hcompares.compare_eq] at heffect
    refine ⟨?either, ?reflected, ?reversed⟩
    case either =>
      by_cases hholds : statement.condition.holds next.before.registers.compare = true
      · exact Or.inl (hcomes.takesEffect hholds)
      · exact Or.inr (hcomes.passesOver hholds)
    case reflected =>
      rintro (horder | hfits)
      · exact heffect.trans (holds_sub_of_not_asksOrder horder)
      · exact heffect.trans (holds_sub_of_fits hfits)
    case reversed =>
      intro horder hfits
      exact heffect.trans (holds_sub_of_not_fits horder hfits)
  · intro request session count front back compare next hattempts
    have hhistory := request.history session count
    rw [hattempts] at hhistory
    exact hhistory.before_eq_after

/-- A machine whose first register holds the greatest number. -/
def greatest : Session :=
  .ofMachine {
    registers := ⟨#[Int32.maxValue, 0], 0⟩
    ram := .zeros .ram 0
    disk := .ofBytes "" #[]
    console := .ofInput []
    maxDepth := 0 }

/-- Moves 1 to the second register if the condition holds. -/
def moveIf (condition : Condition) : Statement :=
  ⟨.move, condition, [⟨.constant, 1⟩, ⟨.register, 1⟩], rfl⟩

/-- Compares the first register with -1, and then may move. -/
def comparesAndMoves (condition : Condition) : Bytes :=
  #[0x0C, 0, 0, 0, 0, 0, 0, 3, 8, 0, 0, 1, 0x01, condition.code, 3, 0, 0, 0, 1, 0, 0, 0, 0, 1]

/-- The statements of such a run, whether or not the second one takes effect. -/
theorem attempts_comparesAndMoves (condition : Condition) : ∃ compare next : Attempt,
    (Request.run (comparesAndMoves condition)).attempts greatest 2 = [compare, next] ∧
      compare.Compares Int32.maxValue (-1) ∧ next.before = compare.after ∧
      next.ComesTo (moveIf condition) := by
  let request := Request.run (comparesAndMoves condition)
  have hfacts : (request.attempts greatest 2).map (fun attempt =>
      (attempt.before.registers, attempt.completes .compare,
        (attempt.statement?.filter (·.instruction == .compare)).map (·.operands),
        (attempt.code.fetch attempt.before.ram attempt.offset 12 >>= Statement.decode).toOption)) =
      [(greatest.machine.registers, true, some [⟨.register, 0⟩, ⟨.constant, -1⟩],
          some ⟨.compare, .always, [⟨.register, 0⟩, ⟨.constant, -1⟩], rfl⟩),
        (⟨#[Int32.maxValue, 0], Int32.minValue⟩, false, none, some (moveIf condition))] := by
    cases condition <;> decide +kernel
  simp only [List.map_eq_cons_iff, List.map_eq_nil_iff, Prod.mk.injEq] at hfacts
  obtain ⟨compare, _, hattempts, ⟨hregisters, hcompletes, hoperands, -⟩, next, _, rfl,
    ⟨-, -, -, hnext⟩, rfl⟩ := hfacts
  have hhistory := request.history greatest 2
  rw [hattempts, ← List.nil_append (compare :: [next])] at hhistory
  refine ⟨compare, next, hattempts, ⟨⟨.register, 0⟩, ⟨.constant, -1⟩, hcompletes, ?_, ?_, rfl⟩,
    hhistory.before_eq_after, ?_⟩
  · obtain ⟨statement, hfound, hsame⟩ := Option.map_eq_some_iff.mp hoperands
    rw [(Option.filter_eq_some_iff.mp hfound).1, Option.map_some, hsame]
  · rw [hregisters]
    rfl
  · exact bind_eq_ok.mp (toOption_eq_some.mp hnext)

/-- The difference of the greatest number and -1 does not fit, so what was to follow if it was greater is
skipped. -/
theorem Request.conditions_after_comparison_skipsGreater :
    ∃ compare next : Attempt,
      (Request.run (comparesAndMoves .greater)).attempts greatest 2 = [compare, next] ∧
      compare.Compares Int32.maxValue (-1) ∧ ¬DifferenceFits Int32.maxValue (-1) ∧
      Condition.greater.Relates Int32.maxValue.toInt (-1 : Int32).toInt ∧
      next.PassesOver (moveIf .greater) := by
  obtain ⟨compare, next, hattempts, hcompares, hfollows, hcomes⟩ := attempts_comparesAndMoves .greater
  have hfits : ¬DifferenceFits Int32.maxValue (-1) := by
    unfold DifferenceFits
    decide
  have hgreater : Condition.greater.Relates Int32.maxValue.toInt (-1 : Int32).toInt := by
    unfold Condition.Relates
    decide
  obtain ⟨heither, -, hreversed⟩ := conditions_after_comparison.1 compare next _ _ _ hcompares hfollows hcomes
  refine ⟨compare, next, hattempts, hcompares, hfits, hgreater, heither.resolve_left fun heffect => ?_⟩
  exact (hreversed rfl hfits).mp heffect hgreater

/-- Compared with -1 the greatest number is found to be less. -/
theorem Request.greatest_found_less :
    ∃ compare next : Attempt,
      (Request.run (comparesAndMoves .less)).attempts greatest 2 = [compare, next] ∧
      compare.Compares Int32.maxValue (-1) ∧
      ¬(Int32.maxValue.toInt < (-1 : Int32).toInt ↔ next.TakesEffect (moveIf .less)) := by
  obtain ⟨compare, next, hattempts, hcompares, hfollows, hcomes⟩ := attempts_comparesAndMoves .less
  refine ⟨compare, next, hattempts, hcompares, fun hreflects => ?_⟩
  have heffect : next.TakesEffect (moveIf .less) := by
    refine hcomes.takesEffect ?_
    rw [hfollows, hcompares.compare_eq]
    decide
  exact absurd (hreflects.mpr heffect) (by decide)

end Microcomputer
