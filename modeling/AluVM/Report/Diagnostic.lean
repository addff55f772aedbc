import AluVM.Numeral

/-! # Diagnostics

What the tools report to their user: how serious it is, where it is and what it is, with what was
expected and a hint where they help. Errors of linking have no place in a source; they name
symbols and offsets instead. -/

namespace AluVM

/-- How serious a report is. -/
inductive Severity where
  | error
  | warning
  | note
  /-- A severity of a foreign report. -/
  | other (name : String)
  deriving DecidableEq, Repr

namespace Severity

/-- The name of a severity. -/
def name : Severity → String
  | error => "error"
  | warning => "advertencia"
  | note => "nota"
  | other name => name

/-- How a report shows its severity: the name in capitals. -/
def label : Severity → String
  | error => "ERROR"
  | warning => "ADVERTENCIA"
  | note => "NOTA"
  | other name => Text.upper name

/-- The severity of a given name. -/
def ofName (name : String) : Severity :=
  match [error, warning, note].find? (·.name = name) with
  | some s => s
  | none => other name

end Severity

/-- The stage of the work that reports. -/
inductive Stage where
  | parse
  | semantic
  | encoding
  | link
  /-- A stage of a foreign report. -/
  | other (name : String)
  deriving DecidableEq, Repr

namespace Stage

/-- The name of a stage. -/
def name : Stage → String
  | parse => "parse"
  | semantic => "semantic"
  | encoding => "encoding"
  | link => "link"
  | other name => name

/-- The stage of a given name. -/
def ofName (name : String) : Stage :=
  match [parse, semantic, encoding, link].find? (·.name = name) with
  | some s => s
  | none => other name

end Stage

/-- A report. -/
structure Diagnostic where
  severity : Severity
  message : String
  line : Option Int := none
  col : Option Int := none
  hint : Option String := none
  file : Option String := none
  stage : Stage := .semantic
  expected : List String := []
  deriving DecidableEq, Repr

namespace Diagnostic

/-- Whether the report is an error. -/
def isError (d : Diagnostic) : Bool := d.severity = .error

/-- An error without a place. -/
def plain (stage : Stage) (message : String) : Diagnostic := { severity := .error, message, stage }

/-- The place of a report: the file and, within it, the line and the column. -/
def place (d : Diagnostic) : String :=
  let file := match d.file with
    | some f => f ++ ":"
    | none => ""
  let position := match d.line, d.col with
    | some l, some c => Numeral.decimal l ++ ":" ++ Numeral.decimal c
    | some l, none => Numeral.decimal l
    | none, _ => ""
  file ++ position

/-- The text of a report. -/
def render (d : Diagnostic) : String :=
  let place := if d.place.isEmpty then "" else d.place ++ ": "
  let expected :=
    if d.expected.isEmpty then "" else " (se esperaba: " ++ ", ".intercalate d.expected ++ ")"
  let hint := match d.hint with
    | some h => if h.isEmpty then "" else "  (pista: " ++ h ++ ")"
    | none => ""
  place ++ d.severity.label ++ ": " ++ d.message ++ expected ++ hint

/-- Whether any report is an error. -/
def anyError (ds : List Diagnostic) : Bool := ds.any isError

/-- The number of errors. -/
def countErrors (ds : List Diagnostic) : Nat := ds.countP isError

end Diagnostic

end AluVM
