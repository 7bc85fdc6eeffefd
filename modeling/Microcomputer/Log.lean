/-! Log records and their levels. -/
namespace Microcomputer

inductive Level
  | error
  | warn
  | info
  | debug
  | trace
  deriving DecidableEq, Repr

namespace Level

def name : Level → String
  | error => "ERROR"
  | warn => "WARN"
  | info => "INFO"
  | debug => "DEBUG"
  | trace => "TRACE"

/-- Zero is the most severe. -/
def rank : Level → Nat
  | error => 0
  | warn => 1
  | info => 2
  | debug => 3
  | trace => 4

/-- Whether a log kept at `threshold` holds records of this level. -/
def keptAt (threshold level : Level) : Bool :=
  level.rank ≤ threshold.rank

end Level

structure Record where
  level : Level
  text : String
  deriving DecidableEq, Repr

def Record.line (record : Record) : String :=
  record.level.name ++ " " ++ record.text

end Microcomputer
