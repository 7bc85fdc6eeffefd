import Microcomputer.Fault

/-!
# The host

What carries the machine out counts in 64 bits and holds fewer than 2 ^ 63 bytes in one place. Where an
operation has no answer it traps: at a sum that does not fit, an index or a range outside of a list, a copy
between different lengths, a number that its new type cannot hold, a division by zero.
-/
namespace Microcomputer

inductive Trap
  | overflow
  | outOfBounds
  | unequalLengths
  | lossyCast
  | divisionByZero
  | missingOperand
  deriving DecidableEq, Repr

/-- Why a computation of the host stops: with a trap, or with a fault that the machine reports. -/
inductive Halt
  | trap (trap : Trap)
  | fault (fault : Fault)
  deriving DecidableEq, Repr

namespace Host

/-- All sizes are below 2 ^ 64. -/
def sizeLimit : Nat := 0x10000000000000000

/-- All byte arrays are smaller than 2 ^ 63. -/
def arrayLimit : Nat := 0x8000000000000000

section Operations

variable {α : Type}

def trap (trap : Trap) : Except Halt α :=
  .error (.trap trap)

def refuse (fault : Fault) : Except Halt α :=
  .error (.fault fault)

/-- An answer that the host only hands on. -/
def lift (answer : Except Fault α) : Except Halt α :=
  answer.mapError .fault

/-- The result of a sum or product of sizes. -/
def size (value : Nat) : Except Halt Nat :=
  if value < sizeLimit then .ok value else trap .overflow

/-- The result of a sum, product or negation of signed words. -/
def signed (value : Int) : Except Halt Int :=
  if Int32.minValue.toInt ≤ value ∧ value ≤ Int32.maxValue.toInt then .ok value else trap .overflow

/-- A signed word as a size. -/
def sizeOf (value : Int32) : Except Halt Nat :=
  if 0 ≤ value.toInt then .ok value.toInt.toNat else trap .lossyCast

/-- A size as a signed address of 64 bits. -/
def addressOf (size : Nat) : Except Halt Int :=
  if size < arrayLimit then .ok size else trap .lossyCast

/-- The negation of a number of 64 bits. -/
def negated (value : Int64) : Except Halt Int64 :=
  if value = Int64.minValue then trap .overflow else .ok (-value)

/-- The least word divided by -1 wraps. -/
def quotient (a b : Int32) : Except Halt Int32 :=
  if b = 0 then trap .divisionByZero else .ok (a / b)

def remainder (a b : Int32) : Except Halt Int32 :=
  if b = 0 then trap .divisionByZero else .ok (a % b)

def index (items : List α) (i : Nat) : Except Halt α :=
  match items[i]? with
  | some item => .ok item
  | none => trap .outOfBounds

def assign (items : List α) (i : Nat) (item : α) : Except Halt (List α) :=
  if i < items.length then .ok (items.set i item) else trap .outOfBounds

/-- The items from `start` on and before `stop`. -/
def slice (items : List α) (start stop : Nat) : Except Halt (List α) :=
  if start ≤ stop ∧ stop ≤ items.length then .ok ((items.drop start).take (stop - start))
  else trap .outOfBounds

/-- Copies `source` over the items from `start` on and before `stop`. -/
def paste (items : List α) (start stop : Nat) (source : List α) : Except Halt (List α) :=
  if start ≤ stop ∧ stop ≤ items.length then
    if source.length = stop - start then .ok (items.take start ++ source ++ items.drop stop)
    else trap .unequalLengths
  else trap .outOfBounds

theorem lift_bind {β : Type} (answer : Except Fault α) (next : α → Except Fault β) :
    lift (answer >>= next) = lift answer >>= fun value => lift (next value) := by
  cases answer <;> rfl

theorem size_of_lt {value : Nat} (h : value < sizeLimit) : size value = .ok value :=
  if_pos h

theorem signed_of_bounds {value : Int} (least : Int32.minValue.toInt ≤ value)
    (greatest : value ≤ Int32.maxValue.toInt) : signed value = .ok value :=
  if_pos ⟨least, greatest⟩

theorem sizeOf_of_nonneg {value : Int32} (h : 0 ≤ value.toInt) : sizeOf value = .ok value.toInt.toNat :=
  if_pos h

theorem addressOf_of_lt {size : Nat} (h : size < arrayLimit) : addressOf size = .ok (size : Int) :=
  if_pos h

theorem index_of_lt {items : List α} {i : Nat} (h : i < items.length) : index items i = .ok items[i] := by
  rw [index, List.getElem?_eq_getElem h]

theorem assign_of_lt {items : List α} {i : Nat} (h : i < items.length) (item : α) :
    assign items i item = .ok (items.set i item) :=
  if_pos h

theorem slice_of_le {items : List α} {start stop : Nat} (order : start ≤ stop)
    (inside : stop ≤ items.length) :
    slice items start stop = .ok ((items.drop start).take (stop - start)) :=
  if_pos ⟨order, inside⟩

theorem paste_of_le {items source : List α} {start : Nat} (h : start + source.length ≤ items.length) :
    paste items start (start + source.length) source =
      .ok (items.take start ++ source ++ items.drop (start + source.length)) := by
  rw [paste, if_pos ⟨Nat.le_add_right .., h⟩, if_pos (Nat.add_sub_cancel_left ..).symm]

end Operations

end Host
end Microcomputer
