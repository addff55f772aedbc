import AluVM.Analysis.Check

/-! # The analysis of a program

Both passes together. All findings are gathered; a program is accepted if none of them is an
error. -/

namespace AluVM

open Syntax (Program)

/-- What is known about an analysed program. -/
structure Analysis where
  mask : Mask
  symbols : SymbolTable
  /-- The sound instructions. -/
  code : List Analysis.Placed
  data : List Analysis.PlacedDatum
  libraries : Analysis.LibraryTable
  entry : Option Nat
  codeSize : Nat
  dataSize : Nat
  findings : List Analysis.Finding
  file : Option String
  deriving DecidableEq, Repr

namespace Analysis

/-- Whether the program is accepted. -/
def ok (a : Analysis) : Bool := !a.findings.any Finding.isError

/-- The reports on the program. -/
def diagnostics (a : Analysis) : List Diagnostic := a.findings.map (Finding.diagnostic a.file)

/-- Reports on the libraries that the program declares and does not use. -/
def unusedFindings (p : Program) (libraries : LibraryTable) (used : List String) : List Finding :=
  libraries.filterMap fun (name, _) =>
    if name ∈ used then none
    else some ⟨.unusedLibrary name, (p.libraries.find? (·.name = name)).map (·.pos)⟩

/-- **The analysis of a program** with extensions that are asked for from outside. It fails if
bytes are given by other characters than hexadecimal digits, or if a report would show a number
with too many digits. -/
def ofProgram (p : Program) (extra : List String := []) (file : Option String := none) :
    Except NumberError Analysis := do
  let sizes ← p.data.mapM datumSize
  let (layout, declared) := Layout.ofProgram p extra sizes
  let start : Progress := { scope := { symbols := layout.symbols, libraries := layout.libraries } }
  let (progress, checked) := gather (Progress.add layout.mask) start p.instructions
  let unused := unusedFindings p progress.scope.libraries progress.scope.used
  let findings := declared ++ checked ++ unused
  if findings.any Finding.isOverlong then throw .overlong
  return {
    mask := layout.mask
    symbols := progress.scope.symbols
    code := progress.code.reverse
    data := layout.data.reverse
    libraries := progress.scope.libraries
    entry := layout.entry
    codeSize := layout.codeSize
    dataSize := layout.dataSize
    findings
    file := file.orElse fun _ => p.file }

end Analysis

end AluVM
