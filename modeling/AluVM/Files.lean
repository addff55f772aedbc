import AluVM.Bytes
import AluVM.Path
import AluVM.Report.Failure

/-! # File operations

What the tools need of a file system. The tools are written against this class, so they run on
the disk as well as on a tree of files that is a plain value. -/

namespace AluVM

/-- The file operations of a monad. Paths are texts, and an operation says what went wrong. -/
class Files (m : Type → Type) where
  /-- The content of a file. -/
  read : String → m (Except FileFault Bytes)
  /-- Creates a file or replaces its content. -/
  write : String → Bytes → m (Except FileFault Unit)
  /-- Creates a directory whose parent exists. -/
  makeDirectory : String → m (Except FileFault Unit)
  /-- Whether what a path leads to is a directory; a fault if it leads to nothing. -/
  isDirectory : String → m (Except FileFault Bool)
  /-- The names in a directory, in any order. -/
  list : String → m (Except FileFault (List String))

namespace Files

variable {m : Type → Type} [Monad m] [Files m]

/-- A fault with the path that it concerns. -/
def atPath {α : Type} (path : String) (result : Except FileFault α) : Except FileError α :=
  result.mapError fun fault => ⟨fault, path⟩

/-- Answers for a path that leads to nothing; other faults stay. -/
def orAbsent {α : Type} (absent : α) : Except FileFault α → Except FileFault α
  | .error .missing => .ok absent
  | .error .notDirectory => .ok absent
  | result => result

/-- Whether a path leads to something. -/
def leads (path : String) : m (Except FileError Bool) := do
  let status : Except FileFault Bool ← isDirectory path
  return atPath path (orAbsent false (status.map fun _ => true))

/-- Whether a path leads to a directory. -/
def leadsToDirectory (path : String) : m (Except FileError Bool) := do
  let status : Except FileFault Bool ← isDirectory path
  return atPath path (orAbsent false status)

/-- Settles a failed creation of a directory: it does not matter if the directory is there. -/
def settle (path : String) (fault : FileFault) : m (Except FileError Unit) := do
  match ← leadsToDirectory path with
  | .ok true => return .ok ()
  | .ok false => return .error ⟨fault, path⟩
  | .error e => return .error e

/-- Creates a directory whose parent exists, unless it is there. -/
def ensureDirectory (path : String) : m (Except FileError Unit) := do
  match ← makeDirectory path with
  | .ok () => return .ok ()
  | .error .missing => return .error ⟨.missing, path⟩
  | .error fault => settle path fault

/-- Creates a directory and those above it, unless they are there. Every level drops a name of
the path, so the number of names is enough fuel. -/
def ensureDirectoriesFrom : (fuel : Nat) → Path → m (Except FileError Unit)
  | 0, p => ensureDirectory p.render
  | fuel + 1, p => do
    match ← makeDirectory p.render with
    | .ok () => return .ok ()
    | .error .missing =>
      match ← ensureDirectoriesFrom fuel p.parent with
      | .ok () => ensureDirectory p.render
      | .error e => return .error e
    | .error fault => settle p.render fault

/-- **Creates a directory** and those above it, unless they are there. -/
def ensureDirectories (p : Path) : m (Except FileError Unit) :=
  ensureDirectoriesFrom p.parts.length p

end Files

end AluVM
