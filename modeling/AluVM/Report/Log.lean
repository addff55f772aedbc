/-! # Log lines

What the tools record while they work, for those who ask for more detail. -/

namespace AluVM

/-- How much detail a line is. -/
inductive LogLevel where
  | debug
  | info
  deriving DecidableEq, Repr

/-- The name of a level. -/
def LogLevel.name : LogLevel → String
  | debug => "DEBUG"
  | info => "INFO"

/-- The verbosity from which on a line is shown. -/
def LogLevel.verbosity : LogLevel → Nat
  | debug => 2
  | info => 1

/-- A line of the log and the part that wrote it. -/
structure LogLine where
  level : LogLevel
  source : String
  message : String
  deriving DecidableEq, Repr

/-- The text of a line. -/
def LogLine.render (l : LogLine) : String := l.level.name ++ " " ++ l.source ++ ": " ++ l.message

end AluVM
