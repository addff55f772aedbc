import AluVM.Command.Arguments
import AluVM.Link.Merge
import AluVM.Listing.Dump
import AluVM.Manifest

/-! # The linker

Links objects to one library, together with the objects of the environment that it needs. Code 0
means that the libraries were written, 1 that something was refused, 2 that a file could not be
read or written. -/

namespace AluVM

/-- What the linker is asked to do. -/
structure LinkRequest where
  /-- Objects by file or by name; all of the directory if there are none. -/
  objects : List String := []
  verbosity : Nat := 0
  /-- The directory of the objects, as it was given. -/
  directory : String := "build/objects"
  manifest : Option String := none
  output : Option String := none
  name : Option String := none
  dump : Option String := none
  /-- The options that were given a blank value. -/
  blanks : List String := []

namespace LinkRequest

/-- The options of the linker. -/
def options : List OptionSpec := [
  .flag ["-v", "--verbose"],
  .value ["-O", "--objects-dir"],
  .value ["-m", "--manifest"],
  .value ["-o", "--output"],
  .value ["-n", "--name"],
  .value ["--dump"]]

/-- The request of a command line. -/
def ofArguments (texts : List String) : Except UsageStop LinkRequest := do
  let a ← Arguments.parse options 0 texts
  return {
    objects := a.plain
    verbosity := a.count "-v"
    directory := (a.last? "-O").getD "build/objects"
    manifest := (a.last? "-m").filter (!·.isEmpty)
    output := (a.last? "-o").filter (!·.isEmpty)
    name := (a.values "-n").getLast?.map (·.getD "")
    dump := a.last? "--dump"
    blanks := a.blanks ["-O"] }

variable {m : Type → Type} [Monad m] [Files m]

/-- The first of several paths that leads to something. -/
def firstThat (paths : List Path) : Tool m (Option Path) := do
  match paths with
  | [] => return none
  | p :: ps => if ← Tool.leads p.render then return some p else firstThat ps

/-- The file of an object: the path itself, the path from the directory on, or the name of an
object there. -/
def findObject (directory : Path) (text : String) : Tool m Path := do
  let p := Path.ofText text
  let found ← firstThat [p, directory.join p, directory.join (Path.ofText (text ++ ".ao"))]
  return found.getD p

/-- The objects of a directory in the order of their names. -/
def allObjects (directory : Path) : Tool m (List Path) := do
  let names ← Tool.list directory.render
  let objects := names.filter fun n => ".ao".toList.isSuffixOf n.toList
  return (objects.mergeSort fun a b => a ≤ b).map fun n => directory.join ⟨"", [n]⟩

/-- The files of the objects to be linked. -/
def findObjects (r : LinkRequest) : Tool m (List Path) := do
  if r.blanks.contains "-O" then throw (.noValue "-O")
  let directory := Path.ofText r.directory
  if r.objects.isEmpty then allObjects directory else r.objects.mapM (findObject directory)

/-- Reads an object. -/
def readObject (p : Path) : Tool m Object := do
  Tool.lift ((Object.ofBytes (← Tool.read p.render)).mapError .format)

/-- Merges and links objects; the objects of the environment that were linked come with the
library. -/
def linkThem (r : LinkRequest) (c : Manifest) (os : List Object) (e : Environment) :
    Tool m (Library × Dict Library) := do
  let s ← Tool.lift (c.strategy.mapError .manifest)
  let (result, linker) := linkObjects os e s r.name
  linker.events.reverse.forM fun event => Tool.log event.line
  return (← Tool.lift result, linker.linked)

/-- Finds and links the objects; nothing if there are none. -/
def gather (r : LinkRequest) : Tool m (Option (Library × Dict Library)) := do
  let c ← match r.manifest with
    | some path => Manifest.load path
    | none => pure {}
  let paths ← findObjects r
  if paths.isEmpty then return none
  let os ← paths.mapM readObject
  let e ← c.environment
  return some (← linkThem r c os e)

/-- The code for what went wrong while objects were found and linked, which is reported. -/
def refuse {α : Type} (e : Failure) : Tool m (Except Nat α) := do
  match e.diagnostic?, e with
  | some d, _ =>
    Tool.complain d.render
    return .error 1
  | none, .file e =>
    Tool.complain ("ERROR: no pude leer " ++ e.path ++ ": " ++ e.fault.message)
    return .error 2
  | none, e => throw e

/-- The library and what it needs, or the code for what went wrong. -/
def linked (r : LinkRequest) : Tool m (Except Nat (Library × Dict Library)) :=
  let result : Tool m (Except Nat (Library × Dict Library)) := do
    match ← gather r with
    | some found => return .ok found
    | none =>
      Tool.complain ("ERROR: no hay módulos objeto en " ++ r.directory)
      return .error 1
  tryCatch result refuse

/-- The file of the library. -/
def target (r : LinkRequest) (l : Library) : Path :=
  match r.output with
  | some path => Path.ofText path
  | none => (Path.ofText "build").join (Path.ofText (l.name ++ ".alu"))

/-- Writes a library that was linked on the way. -/
def writeInline (directory : Path) (name : String) (l : Library) : Tool m Unit := do
  Tool.write (directory.join (Path.ofText (name ++ ".alu"))).render (← Tool.lift l.toBytes)
  Tool.log ⟨.info, "aluasm.alulink", "dependencia " ++ name ++ " -> " ++ l.id⟩

/-- Writes the library, those that were linked on the way beside it, and the dump. -/
def write (r : LinkRequest) (l : Library) (inline : Dict Library) : Tool m Unit := do
  let out := r.target l
  Tool.ensureDirectories out.parent
  Tool.write out.render (← Tool.lift l.toBytes)
  inline.forM fun (name, l) => writeInline out.parent name l
  if (r.dump.filter (!·.isEmpty)).isSome then Tool.deliver r.dump (← Tool.lift l.dump)

/-- **Carries out a request.** -/
def perform (r : LinkRequest) : Tool m Nat := do
  match ← linked r with
  | .error code => return code
  | .ok (l, inline) =>
    let some () ← Tool.writing (r.write l inline) | return 2
    Tool.print ("OK: " ++ l.name ++ " → " ++ (r.target l).render)
    Tool.print l.id
    return 0

end LinkRequest

/-- **The linker on a command line.** -/
def linkCommand {m : Type → Type} [Monad m] [Files m] (texts : List String) : m Outcome :=
  match LinkRequest.ofArguments texts with
  | .ok r => Tool.outcome r.verbosity r.perform
  | .error stop => return .exit stop.code

end AluVM
