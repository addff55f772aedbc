import AluVM.Machine.Instruction
import AluVM.Report.Diagnostic
import AluVM.Symbol
import AluVM.Text.Closest

/-! # Findings

Everything that the analysis of a program can report, as data: what was found and where. The
wording, the hint and the severity follow from the cause. -/

namespace AluVM.Analysis

open Syntax (Operand)

/-- What was found. -/
inductive Cause where
  /-- An extension that does not exist. -/
  | unknownExtension (name : String)
  /-- A second library of one name. -/
  | libraryRedefined (name : String)
  /-- A library id that is no content id. -/
  | malformedId (id : String)
  /-- A second symbol of one name, and the line of the first one if it is known. -/
  | redefined (kind : SymbolKind) (name : String) (line : Option Nat)
  /-- A remark on where the first symbol is. -/
  | firstDeclared (name : String)
  /-- A symbol beyond the greatest offset. -/
  | outOfReach (kind : SymbolKind) (name : String) (offset : Int)
  | dataTooLarge (size : Nat)
  | codeTooLarge (size : Nat)
  /-- A second main routine. -/
  | secondMain
  /-- Numbers under the type of strings. -/
  | numericString (name : String)
  /-- A value that denotes no bytes. -/
  | badBytes (name : String) (value : Operand)
  | unknownType (type : String)
  /-- A value outside the range of its type. -/
  | valueRange (type name : String) (value low high : Int)
  | unknownInstruction (mnemonic : String)
  /-- An instruction of an extension that the program does not declare. -/
  | missingExtension (mnemonic : String) (extension : Extension)
  | operandCount (mnemonic : String) (expected given : Nat)
  /-- Registers of several sets where one is demanded. -/
  | mixedSets (mnemonic : String) (sets : List String)
  | registerExpected (mnemonic : String) (banks : List Bank) (operand : Operand)
  | badRegister (e : RegisterError)
  /-- A register of a bank that the slot does not take. -/
  | bankRefused (mnemonic set : String) (banks : List Bank)
  /-- A register of a set that the slot does not take. -/
  | setRefused (mnemonic set : String) (sets : List String)
  | immediateExpected (mnemonic : String) (operand : Operand)
  /-- An integer that its slot cannot hold. -/
  | immediateRange (value : Int) (bits : Nat) (signed : Bool)
  /-- A routine of a library where a label is demanded. -/
  | externalLabel (mnemonic : String) (operand : Operand)
  | labelExpected (mnemonic : String) (operand : Operand)
  | datumExpected (mnemonic : String) (operand : Operand)
  /-- No routine of a library; the operand may be the name of a routine of the program. -/
  | callExpected (mnemonic : String) (operand : Operand) (own : Option String)
  /-- A name of another kind than demanded. -/
  | wrongKind (name : String) (found demanded : SymbolKind)
  /-- A name that nothing has, and the names that there are. -/
  | undefinedSymbol (name : String) (known : List String)
  | unusedLibrary (name : String)
  deriving DecidableEq, Repr

/-- The types of numeric data: the name, the width in bytes, and whether there is a sign. -/
def numericTypes : List (String × Nat × Bool) :=
  [("u8", 1, false), ("u16", 2, false), ("u32", 4, false), ("u64", 8, false),
    ("u128", 16, false), ("u256", 32, false),
    ("i8", 1, true), ("i16", 2, true), ("i32", 4, true), ("i64", 8, true)]

/-- The type of data that are given as hexadecimal digits. -/
def blobType : String := "bytes"

/-- Text with an upper-case first letter. -/
def capitalize (s : String) : String := s.capitalize

/-- The remark that there might be a better name. -/
def suggestion (name : String) (known : List String) : Option String :=
  (Text.Closest.closest? name known).map fun better => "¿quisiste decir '" ++ better ++ "'?"

namespace Cause

/-- The wording of a range. -/
def rangeText (low high : Int) : String :=
  " (" ++ Numeral.decimal low ++ ".." ++ Numeral.decimal high ++ ")"

/-- The wording of a cause. -/
def message : Cause → String
  | unknownExtension name => (ExtensionError.unknownName name).message
  | libraryRedefined name => "Librería redefinida: " ++ name
  | malformedId id => "Id de librería mal formado: " ++ id
  | redefined kind name _ => "Redefinición de " ++ kind.label ++ ": " ++ name
  | firstDeclared name => "primera declaración de " ++ name
  | outOfReach kind name offset =>
    capitalize kind.label ++ " '" ++ name ++ "' fuera del rango direccionable: desplazamiento " ++
      Numeral.decimal offset ++ " (máximo " ++ toString maxOffset ++ ")"
  | dataTooLarge size =>
    "Segmento de datos demasiado grande: " ++ toString size ++ " bytes (máximo " ++
      toString maxSegment ++ ")"
  | codeTooLarge size =>
    "Segmento de código demasiado grande: " ++ toString size ++ " bytes (máximo " ++
      toString maxSegment ++ ")"
  | secondMain => "Sección .MAIN duplicada"
  | numericString name => "'str' no es un tipo numérico en " ++ name
  | badBytes name value => "Valor de 'bytes' inválido en " ++ name ++ ": " ++ value.render
  | unknownType type => "Tipo de dato desconocido: " ++ type
  | valueRange type name value low high =>
    "Valor fuera de rango para " ++ type ++ " en " ++ name ++ ": " ++ Numeral.decimal value ++
      rangeText low high
  | unknownInstruction mnemonic => (UnknownInstruction.mk mnemonic).message
  | missingExtension mnemonic extension =>
    mnemonic ++ " requiere la extensión " ++ extension.name ++ ", no declarada en .ISAE"
  | operandCount mnemonic expected given =>
    mnemonic ++ " espera " ++ toString expected ++ " operando(s), recibió " ++ toString given
  | mixedSets mnemonic sets =>
    mnemonic ++ " requiere registros del mismo conjunto: " ++ ", ".intercalate sets
  | registerExpected mnemonic banks operand =>
    mnemonic ++ ": se esperaba registro " ++ Bank.label banks ++ ", no '" ++ operand.render ++ "'"
  | badRegister e => e.message
  | bankRefused mnemonic set banks =>
    mnemonic ++ ": banco de " ++ set ++ " no admitido (admite " ++ Bank.label banks ++ ")"
  | setRefused mnemonic set sets =>
    mnemonic ++ ": requiere " ++ "/".intercalate sets ++ ", no " ++ set
  | immediateExpected mnemonic operand =>
    mnemonic ++ ": se esperaba inmediato, no '" ++ operand.render ++ "'"
  | immediateRange value bits signed =>
    "Operando fuera de rango: " ++ Numeral.decimal value ++ " no cabe en " ++ toString bits ++
      " bits " ++ (if signed then "con signo" else "sin signo") ++
      rangeText (Integer.bounds bits signed).1 (Integer.bounds bits signed).2
  | externalLabel mnemonic operand =>
    mnemonic ++ ": '" ++ operand.render ++ "' es externa; usa 'call' o 'exec'"
  | labelExpected mnemonic operand =>
    mnemonic ++ ": se esperaba etiqueta, no '" ++ operand.render ++ "'"
  | datumExpected mnemonic operand =>
    mnemonic ++ ": se esperaba símbolo de datos, no '" ++ operand.render ++ "'"
  | callExpected mnemonic operand _ =>
    mnemonic ++ ": se esperaba llamada externa 'lib.rutina', no '" ++ operand.render ++ "'"
  | wrongKind name found demanded =>
    "'" ++ name ++ "' es " ++ found.label ++ ", no " ++ demanded.label
  | undefinedSymbol name _ => "Símbolo no definido: " ++ name
  | unusedLibrary name => "Librería declarada y no usada: " ++ name

/-- The integers that the wording shows in decimal and that may have too many digits. -/
def shown : Cause → List Int
  | badBytes _ value => value.shown
  | valueRange _ _ value _ _ => [value]
  | registerExpected _ _ operand => operand.shown
  | immediateExpected _ operand => operand.shown
  | immediateRange value _ _ => [value]
  | externalLabel _ operand => operand.shown
  | labelExpected _ operand => operand.shown
  | datumExpected _ operand => operand.shown
  | callExpected _ operand _ => operand.shown
  | _ => []

/-- The hint that goes with a cause. -/
def hint : Cause → Option String
  | unknownExtension name => suggestion name (Extension.all.map Extension.name)
  | malformedId _ => some "formato <algoritmo>:<digest hex>, p.ej. sha256:…"
  | redefined _ _ (some line) => some ("ya declarada en la línea " ++ toString line)
  | numericString name => some ("las cadenas se declaran como " ++ name ++ " = \"texto\"")
  | badBytes .. => some "usa hexadecimal 0x… con un número par de dígitos"
  | unknownType type => suggestion type (numericTypes.map (·.1) ++ [blobType])
  | unknownInstruction mnemonic => suggestion mnemonic (Spec.all.map (·.mnemonic))
  | missingExtension _ extension => some ("añade '" ++ extension.name ++ "' a la sección .ISAE")
  | callExpected _ _ (some name) => some ("'" ++ name ++ "' es local; usa 'routine " ++ name ++ "'")
  | undefinedSymbol name known => suggestion name known
  | _ => none

/-- How serious a cause is. -/
def severity : Cause → Severity
  | firstDeclared _ => .note
  | unusedLibrary _ => .warning
  | _ => .error

end Cause

/-- A cause and its place, unless it concerns the program as a whole. -/
structure Finding where
  cause : Cause
  pos : Option Position := none
  deriving DecidableEq, Repr

namespace Finding

/-- The report of a finding. -/
def diagnostic (file : Option String) (f : Finding) : Diagnostic where
  severity := f.cause.severity
  message := f.cause.message
  line := f.pos.map fun p => (p.line : Int)
  col := f.pos.map fun p => (p.col : Int)
  hint := f.cause.hint
  file := file

/-- Whether the finding is an error. -/
def isError (f : Finding) : Bool := f.cause.severity = .error

/-- Whether the report would show an integer with too many digits. -/
def isOverlong (f : Finding) : Bool := f.cause.shown.any Numeral.isOverlong

end Finding

/-- Runs steps that change a state and find things, and gathers the findings in order. -/
def gather {σ α : Type} (step : σ → α → σ × List Finding) (s : σ) (xs : List α) :
    σ × List Finding :=
  let (s, found) := xs.foldl
    (fun (s, found) x =>
      let (s, new) := step s x
      (s, new.reverse ++ found))
    (s, [])
  (s, found.reverse)

end AluVM.Analysis
