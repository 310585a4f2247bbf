/-! Which messages are logged: a level for each of the two phases, and one for everything else. -/

namespace GrammarFrontend

/-- How much is logged, from nothing at all to everything. -/
inductive LogLevel where
  | off
  | error
  | warn
  | info
  | debug
  | trace
deriving DecidableEq, Repr, Inhabited

namespace LogLevel

def all : List LogLevel := [off, error, warn, info, debug, trace]

def name : LogLevel → String
  | off => "OFF"
  | error => "ERROR"
  | warn => "WARN"
  | info => "INFO"
  | debug => "DEBUG"
  | trace => "TRACE"

def ofName? (name : String) : Option LogLevel := all.find? (·.name == name)

def rank : LogLevel → Nat
  | off => 0
  | error => 1
  | warn => 2
  | info => 3
  | debug => 4
  | trace => 5

instance : LE LogLevel where
  le a b := a.rank ≤ b.rank

instance (a b : LogLevel) : Decidable (a ≤ b) := inferInstanceAs (Decidable (a.rank ≤ b.rank))

end LogLevel

/-- The two halves of the work: text to tokens, and the walk of a tree. -/
inductive Phase where
  | scanner
  | walker
deriving DecidableEq, Repr, Inhabited

namespace Phase

def name : Phase → String
  | scanner => "lexer"
  | walker => "walker"

/-- The target that the messages of a phase start with. -/
def target (p : Phase) : String := "gramlex::" ++ p.name

end Phase

structure LogFilter where
  /-- The level of every message that no phase covers. -/
  preset : LogLevel
  /-- The level of each phase that has one of its own; the last one given counts. -/
  phases : List (Phase × LogLevel)
deriving DecidableEq, Repr

namespace LogFilter

def covers (p : Phase) (target : String) : Bool := p.target.toList.isPrefixOf target.toList

/-- The level for a target. No target is covered by both phases, since neither one's target is the
start of the other's. -/
def level (f : LogFilter) (target : String) : LogLevel :=
  match f.phases.reverse.find? (covers ·.1 target) with
  | some (_, level) => level
  | none => f.preset

def enables (f : LogFilter) (target : String) (level : LogLevel) : Bool :=
  decide (level ≤ f.level target)

end LogFilter

end GrammarFrontend
