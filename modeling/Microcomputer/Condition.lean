/-! Conditions on the compare flag, which decide whether a statement takes effect. -/
namespace Microcomputer

inductive Condition
  | always
  | equal
  | notEqual
  | greater
  | notGreater
  | less
  | notLess
  deriving DecidableEq, Repr

namespace Condition

/-- In the order of their codes. -/
def all : List Condition :=
  [always, equal, notEqual, greater, notGreater, less, notLess]

def code : Condition → UInt8
  | always => 0
  | equal => 1
  | notEqual => 2
  | greater => 3
  | notGreater => 4
  | less => 5
  | notLess => 6

def ofCode? (code : UInt8) : Option Condition :=
  all.find? (·.code == code)

def name : Condition → String
  | always => "Always"
  | equal => "Equal"
  | notEqual => "NotEqual"
  | greater => "Greater"
  | notGreater => "NotGreater"
  | less => "Less"
  | notLess => "NotLess"

/-- The ending of the mnemonic; an unconditional statement has none. -/
def suffix? : Condition → Option String
  | always => none
  | equal => some "eq"
  | notEqual => some "ne"
  | greater => some "gt"
  | notGreater => some "ng"
  | less => some "lt"
  | notLess => some "nl"

def ofSuffix? (suffix : String) : Option Condition :=
  all.find? (·.suffix? == some suffix)

def holds (condition : Condition) (compare : Int32) : Bool :=
  match condition with
  | always => true
  | equal => compare == 0
  | notEqual => compare != 0
  | greater => compare > 0
  | notGreater => compare ≤ 0
  | less => compare < 0
  | notLess => compare ≥ 0

theorem ofCode?_eq_some_iff {code : UInt8} {condition : Condition} :
    ofCode? code = some condition ↔ condition.code = code := by
  constructor
  · intro h
    simpa using List.find?_some h
  · rintro rfl
    cases condition <;> rfl

theorem ofSuffix?_eq_some_iff {suffix : String} {condition : Condition} :
    ofSuffix? suffix = some condition ↔ condition.suffix? = some suffix := by
  constructor
  · intro h
    simpa using List.find?_some h
  · intro h
    cases condition <;> simp only [suffix?, Option.some.injEq, reduceCtorEq] at h <;> subst h <;> rfl

end Condition
end Microcomputer
