import AluVM.Files
import AluVM.Report.Log
import AluVM.Text.Lines

/-! # What the tools do to the world

A tool reads and writes files, prints to two streams, and ends with a code or with a failure that
it does not handle. -/

namespace AluVM

/-- What a tool printed so far. -/
structure Console where
  /-- How much of the log is shown on the error stream. -/
  verbosity : Nat := 0
  out : String := ""
  err : String := ""
  deriving DecidableEq, Repr

/-- The work of a tool over file operations. -/
abbrev Tool (m : Type → Type) := ExceptT Failure (StateT Console m)

namespace Tool

variable {m : Type → Type} [Monad m]

/-! ### Printing -/

/-- Prints a line. -/
def print (line : String) : Tool m Unit := modify fun c => { c with out := c.out ++ line ++ "\n" }

/-- Prints a line on the error stream. -/
def complain (line : String) : Tool m Unit :=
  modify fun c => { c with err := c.err ++ line ++ "\n" }

/-- Prints lines as one text. -/
def printAll (lines : List String) : Tool m Unit := print ("\n".intercalate lines)

/-- Records a line if that much detail is asked for. -/
def log (line : LogLine) : Tool m Unit := do
  if line.level.verbosity ≤ (← get).verbosity then complain line.render

/-- Fails or goes on as a computation of another part does. -/
def lift {α : Type} : Except Failure α → Tool m α
  | .ok a => pure a
  | .error e => throw e

/-! ### Files -/

variable [Files m]

/-- Runs a file operation on a path; no path has a null character. -/
def onPath {α : Type} (path : String) (op : m (Except FileError α)) : Tool m α := do
  if path.toList.contains '\x00' then throw (.badPath path)
  match ← op with
  | .ok a => return a
  | .error e => throw (.file e)

/-- The content of a file. -/
def read (path : String) : Tool m Bytes := onPath path (Files.atPath path <$> Files.read path)

/-- The text of a file, with its line breaks unified. -/
def readText (path : String) : Tool m (List Char) := do
  match Bytes.decodeChars (← read path) with
  | .ok cs => return Text.unifyNewlines cs
  | .error e => throw (.text e)

/-- Creates a file or replaces its content. -/
def write (path : String) (content : Bytes) : Tool m Unit :=
  onPath path (Files.atPath path <$> Files.write path content)

/-- Writes lines. -/
def writeLines (path : String) (lines : List String) : Tool m Unit :=
  write path (Bytes.ofText (String.join (lines.map (· ++ "\n"))))

/-- Creates a directory and those above it. -/
def ensureDirectories (p : Path) : Tool m Unit := onPath p.render (Files.ensureDirectories p)

/-- Answers for a path that no file can have. -/
def orNowhere {α : Type} (absent : α) (x : Tool m α) : Tool m α :=
  tryCatch x fun
    | .badPath _ => pure absent
    | e => throw e

/-- Whether a path leads to something. -/
def leads (path : String) : Tool m Bool := orNowhere false (onPath path (Files.leads path))

/-- Whether a path leads to a directory. -/
def leadsToDirectory (path : String) : Tool m Bool :=
  orNowhere false (onPath path (Files.leadsToDirectory path))

/-- The names in a directory, none if there is no such directory. -/
def list (path : String) : Tool m (List String) := do
  if ← leadsToDirectory path then onPath path (Files.atPath path <$> Files.list path) else return []

/-- Writes lines to a file, or prints them if the name of the file is a dash; an empty name is
none. -/
def deliver (target : Option String) (lines : List String) : Tool m Unit := do
  match target with
  | none => return ()
  | some path =>
    if path = "-" then printAll lines
    else if path.isEmpty then return ()
    else writeLines path lines

/-- Writes files, or reports that one of them could not be written. -/
def writing {α : Type} (x : Tool m α) : Tool m (Option α) :=
  tryCatch (some <$> x) fun
    | .file e => do
      complain ("ERROR al escribir salidas: " ++ e.message)
      return none
    | e => throw e

end Tool

/-- How a run of a tool ended. -/
inductive Outcome where
  /-- The arguments were refused or help was asked for. -/
  | exit (code : Nat)
  | finished (code : Nat) (out err : String)
  | failed (e : Failure)
  deriving DecidableEq, Repr

/-- Runs the work of a tool that gives a code. -/
def Tool.outcome {m : Type → Type} [Monad m] (verbosity : Nat) (work : Tool m Nat) : m Outcome := do
  match ← (work.run { verbosity : Console }) with
  | (.ok code, c) => return .finished code c.out c.err
  | (.error e, _) => return .failed e

end AluVM
