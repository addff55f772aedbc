import AluVM.Object.Encode
import AluVM.Report.Log
import AluVM.Syntax.Source

/-! # Assembling a source

From text to object: the source is read, analysed and encoded, and the reports of all stages are
gathered. There is an object unless one of the reports is an error. -/

namespace AluVM

open Syntax (Program)

/-- What assembling a source gave, and what is worth recording about it. -/
structure Assembly where
  program : Option Program := none
  analysis : Option Analysis := none
  reports : List Diagnostic := []
  object : Option Object := none
  log : List LogLine := []
  deriving DecidableEq, Repr

namespace Assembly

/-- How a source is called in the log. -/
def title (file : Option String) : String := (file.filter (!·.isEmpty)).getD "<mem>"

/-- The record of a source with a number of items. -/
def readLine (file : Option String) (items : Nat) : LogLine :=
  ⟨.debug, "aluasm.parser", title file ++ ": " ++ toString items ++ " elementos de nivel superior"⟩

/-- The record of a violation of the grammar. -/
def faultLine (d : Diagnostic) : LogLine :=
  ⟨.debug, "aluasm.parser", "error de sintaxis: " ++ d.render⟩

/-- The record of an analysis. -/
def analysisLine (a : Analysis) : LogLine :=
  ⟨.debug, "aluasm.semantic",
    title a.file ++ ": " ++ toString a.symbols.toList.length ++ " símbolos, " ++
    toString a.codeSize ++ " bytes de código, " ++ toString a.dataSize ++ " de datos, " ++
    toString a.diagnostics.length ++ " diagnóstico(s)"⟩

/-- The record of an object. -/
def objectLine (o : Object) : LogLine :=
  ⟨.info, "aluasm.encoding", o.name ++ ": " ++ toString o.code.length ++ " bytes de código, " ++
    toString o.data.length ++ " de datos, " ++ toString o.relocations.length ++ " reubicaciones"⟩

/-- Encodes an analysed program. -/
def ofAnalysis (p : Program) (a : Analysis) (file : Option String) : Except Failure Assembly :=
  let done : Assembly :=
    { program := p, analysis := a, reports := a.diagnostics,
      log := [readLine file p.items.length, analysisLine a] }
  if a.ok then
    match a.encode with
    | .ok o => .ok { done with object := o, log := done.log ++ [objectLine o] }
    | .error (.encoding e) => .ok { done with reports := done.reports ++ [e.diagnostic] }
    | .error e => .error e
  else .ok done

/-- The assembly of a text that denotes no program. -/
def ofSourceError (file : Option String) (e : Syntax.SourceError) : Except Failure Assembly :=
  match e with
  | .overlong => .error .overlongLiteral
  | .fault f => .ok { reports := e.diagnostics file, log := [faultLine (f.diagnostic file)] }
  | .literals items _ => .ok { reports := e.diagnostics file, log := [readLine file items] }

/-- **Assembles a source** with extensions that are asked for from outside, given the names of
characters. It fails only for numbers with too many digits. -/
def ofText (names : Syntax.CharacterNames) (text : String) (file : Option String := none)
    (extra : List String := []) : Except Failure Assembly :=
  match Syntax.parse names text file with
  | .error e => ofSourceError file e
  | .ok p =>
    match Analysis.ofProgram p extra file with
    | .error e => .error (.number e)
    | .ok a => ofAnalysis p a file

end Assembly

end AluVM
