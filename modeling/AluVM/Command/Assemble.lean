import AluVM.Assembly
import AluVM.Command.Arguments
import AluVM.Command.Console
import AluVM.Link.Linker
import AluVM.Listing.Dump

/-! # The assembler

Assembles sources to objects in a directory, one file each, and on request links every object
without dependencies to a library. Code 0 means that everything was done, 1 that a source or an
object was refused, 2 that a file could not be read or written. -/

namespace AluVM

/-- What the assembler is asked to do. -/
structure AssembleRequest where
  sources : List String
  verbosity : Nat := 0
  output : Path := Path.ofText "build/objects"
  extensions : List String := []
  /-- Whether libraries are linked. -/
  link : Bool := false
  strategy : ContentId.Strategy := .sha256
  dump : Option String := none
  hex : Bool := false
  disassemble : Bool := false
  /-- The options that were given a blank value. -/
  blanks : List String := []

namespace AssembleRequest

/-- The options of the assembler. -/
def options : List OptionSpec := [
  .flag ["-v", "--verbose"],
  .value ["-o", "--output"],
  .value ["--isae"],
  .flag ["--lib"],
  .value ["--digest"] fun name => (ContentId.Strategy.named? name).isSome,
  .value ["--dump"],
  .flag ["--hex"],
  .flag ["--disassemble"],
  .value ["-j", "--jobs"] OptionSpec.isInteger]

/-- The request of a command line. -/
def ofArguments (texts : List String) : Except UsageStop AssembleRequest := do
  let a ← Arguments.parse options 1 texts
  return {
    sources := a.plain
    verbosity := a.count "-v"
    output := Path.ofText ((a.last? "-o").getD "build/objects")
    extensions := (a.values "--isae").filterMap id
    link := a.has "--lib"
    strategy := ((a.last? "--digest").bind ContentId.Strategy.named?).getD .sha256
    dump := a.last? "--dump"
    hex := a.has "--hex"
    disassemble := a.has "--disassemble"
    blanks := a.blanks ["-o", "--digest", "-j"] ++
      (if (a.values "--isae").contains none then ["--isae"] else []) }

variable {m : Type → Type} [Monad m] [Files m]

/-- The file of a name and a suffix in the directory of the objects. -/
def file (r : AssembleRequest) (name suffix : String) : String :=
  (r.output.join (Path.ofText (name ++ suffix))).render

/-- Fails if an option was given a blank value. -/
def need (r : AssembleRequest) (option : String) : Tool m Unit := do
  if r.blanks.contains option then throw (.noValue option)

section Sources
variable (names : Syntax.CharacterNames)

/-- Reads and assembles a source. A blank extension only matters to a program. -/
def assembleFile (r : AssembleRequest) (source : String) : Tool m Assembly := do
  let text := String.ofList (← Tool.readText (Path.ofText source).render)
  if r.blanks.contains "--isae" && (Syntax.parse names text (some source)).isOk then
    throw (.noValue "--isae")
  let a ← Tool.lift (Assembly.ofText names text (some source) r.extensions)
  a.log.forM Tool.log
  return a

/-- Reads and assembles all sources; nothing if one of them could not be read. -/
def assembleAll (r : AssembleRequest) : Tool m (Option (List Assembly)) :=
  tryCatch (some <$> r.sources.mapM (assembleFile names r)) fun e => do
    match e with
    | .file e => Tool.complain ("ERROR: no pude leer las fuentes: " ++ e.message)
    | .text e => Tool.complain ("ERROR: no pude leer las fuentes: " ++ e.message)
    | e => throw e
    return none

end Sources

/-- The objects of assemblies, if all have one. -/
def objects? (as : List Assembly) : Option (List Object) :=
  as.mapM fun a => if Diagnostic.anyError a.reports then none else a.object

/-- Writes an object and gives its dump. -/
def writeObject (r : AssembleRequest) (o : Object) : Tool m (List String) := do
  Tool.write (r.file o.name ".ao") (← Tool.lift o.toBytes)
  if r.hex then Tool.writeLines (r.file o.name ".hex") (hexLines o.code)
  let dump ← Tool.lift o.dump
  if r.disassemble then Tool.printAll (← Tool.lift o.disassemble)
  return dump ++ [""]

/-- Writes a library and gives its dump. -/
def writeLibrary (r : AssembleRequest) (l : Library) : Tool m (List String) := do
  Tool.write (r.file l.name ".alu") (← Tool.lift l.toBytes)
  let dump ← Tool.lift l.dump
  if r.disassemble then Tool.printAll (← Tool.lift l.disassemble)
  return dump ++ [""]

/-- Links an object without dependencies, or reports why it cannot be. -/
def linkAlone (r : AssembleRequest) (o : Object) : Tool m (Option Library) := do
  r.need "--digest"
  let (result, linker) := (Linker.link o).run { env := {}, strategy := r.strategy }
  linker.events.reverse.forM fun e => Tool.log e.line
  match result with
  | .ok l => return some l
  | .error e =>
    match e.diagnostic? with
    | some d =>
      Tool.complain d.render
      return none
    | none => throw e

/-- Links objects on request; whether all could be linked comes with the libraries. -/
def linkAll (r : AssembleRequest) (os : List Object) : Tool m (List Library × Bool) := do
  if r.link then
    let ls ← os.mapM (linkAlone r)
    return (ls.filterMap id, ls.all (·.isSome))
  else return ([], true)

/-- Writes the objects and gives their dumps. -/
def writeObjects (r : AssembleRequest) (os : List Object) : Tool m (List String) := do
  Tool.ensureDirectories r.output
  return (← os.mapM (writeObject r)).flatten

/-- Writes the libraries, then the dump of everything. -/
def writeLibraries (r : AssembleRequest) (ls : List Library) (dump : List String) :
    Tool m Unit := do
  let dumps ← ls.mapM (writeLibrary r)
  Tool.deliver r.dump (dump ++ dumps.flatten)

/-- Writes what the objects give. -/
def emit (r : AssembleRequest) (os : List Object) : Tool m Nat := do
  r.need "-o"
  let some dump ← Tool.writing (writeObjects r os) | return 2
  os.forM fun o => Tool.log ⟨.info, "aluasm.assembler", o.name ++ " -> " ++ r.file o.name ".ao"⟩
  let (ls, all) ← linkAll r os
  let some () ← Tool.writing (writeLibraries r ls dump) | return 2
  ls.forM fun l => Tool.print (l.name ++ ": " ++ l.id)
  Tool.print ("OK: " ++ toString os.length ++ " módulo(s) → " ++ r.output.render)
  return if all then 0 else 1

/-- **Carries out a request.** -/
def perform (names : Syntax.CharacterNames) (r : AssembleRequest) : Tool m Nat := do
  r.need "-j"
  let some as ← assembleAll names r | return 2
  as.forM fun a => a.reports.forM fun d => Tool.complain d.render
  match objects? as with
  | some os => emit r os
  | none => return 1

end AssembleRequest

/-- **The assembler on a command line**, given the names of characters. -/
def assembleCommand {m : Type → Type} [Monad m] [Files m] (names : Syntax.CharacterNames)
    (texts : List String) : m Outcome :=
  match AssembleRequest.ofArguments texts with
  | .ok r => Tool.outcome r.verbosity (r.perform names)
  | .error stop => return .exit stop.code

end AluVM
