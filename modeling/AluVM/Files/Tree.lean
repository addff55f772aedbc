import AluVM.Bytes.Utf8
import AluVM.Files

/-! # Trees of files

A file system as a plain value: what is at each place, and the working directory from which
relative paths start. A place is the list of names on the way from the root. Trees have neither
symbolic nor hard links, so every place has an entry of its own, and no permissions: what exists can
be read and written. -/

namespace AluVM

/-- What is at a place. -/
inductive Entry where
  | directory
  | file (content : Bytes)
  deriving DecidableEq, Repr

/-- The names on the way from the root. -/
abbrev Place := List String

/-- A tree of files. The root is always a directory. -/
structure FileTree where
  /-- The working directory. -/
  home : Place
  entries : List (Place × Entry)
  deriving DecidableEq, Repr

namespace FileTree

/-- What is at a place. -/
def at? (t : FileTree) (p : Place) : Option Entry :=
  if p.isEmpty then some .directory else t.entries.lookup p

/-- Puts something at a place. -/
def put (t : FileTree) (p : Place) (e : Entry) : FileTree :=
  { t with entries := (p, e) :: t.entries.filter (·.1 ≠ p) }

/-! ### Following paths -/

/-- Where a path leads. -/
inductive Target where
  | directory (place : Place)
  | file (place : Place) (content : Bytes)
  /-- Nothing is there yet, but its directory exists. -/
  | absent (place : Place)
  deriving DecidableEq, Repr

/-- The greatest length of a name, in bytes. -/
def maxName : Nat := 255

/-- The length, in bytes, that a path must not reach. -/
def maxPath : Nat := 4096

/-- Follows the steps of a path from a directory on. -/
def follow (t : FileTree) (dir : Place) : List String → Except FileFault Target
  | [] => .ok (.directory dir)
  | step :: steps =>
    if step.isEmpty || step = "." then t.follow dir steps
    else if step = ".." then t.follow dir.dropLast steps
    else if maxName < step.utf8ByteSize then .error .nameTooLong
    else
      match t.at? (dir ++ [step]) with
      | some .directory => t.follow (dir ++ [step]) steps
      | some (.file content) =>
        if steps.isEmpty then .ok (.file (dir ++ [step]) content) else .error .notDirectory
      | none =>
        if steps.all (·.isEmpty) then .ok (.absent (dir ++ [step])) else .error .missing

/-- Where the given steps of a path lead. -/
def targetOf (t : FileTree) (path : String) (steps : List String) : Except FileFault Target :=
  if path.isEmpty then .error .missing
  else if maxPath ≤ path.utf8ByteSize then .error .nameTooLong
  else t.follow (if path.toList.head? = some '/' then [] else t.home) steps

/-- Where a path leads. -/
def target (t : FileTree) (path : String) : Except FileFault Target :=
  t.targetOf path (Path.pieces [] path.toList)

/-- The steps of a path to the directory of what it names. -/
def stepsAbove (path : String) : List String :=
  (((Path.pieces [] path.toList).reverse.dropWhile (·.isEmpty)).drop 1).reverse

/-! ### Operations -/

/-- The content of a file. -/
def read (t : FileTree) (path : String) : Except FileFault Bytes := do
  match ← t.target path with
  | .file _ content => return content
  | .directory _ => throw .isDirectory
  | .absent _ => throw .missing

/-- The fault of a path with a slash at its end, where a file is to be written: a directory, unless
there is a fault on the way. -/
def slashFault (t : FileTree) (path : String) : FileFault :=
  match t.targetOf path (stepsAbove path) with
  | .error fault => fault
  | .ok (.directory _) => .isDirectory
  | .ok (.file ..) => .notDirectory
  | .ok (.absent _) => .missing

/-- Creates a file or replaces its content. -/
def write (t : FileTree) (path : String) (content : Bytes) : Except FileFault FileTree := do
  if path.toList.getLast? = some '/' then throw (t.slashFault path)
  match ← t.target path with
  | .file place _ => return t.put place (.file content)
  | .directory _ => throw .isDirectory
  | .absent place => return t.put place (.file content)

/-- Creates a directory. -/
def makeDirectory (t : FileTree) (path : String) : Except FileFault FileTree := do
  match ← t.target path with
  | .absent place => return t.put place .directory
  | _ => throw .alreadyThere

/-- Whether what a path leads to is a directory. -/
def isDirectory (t : FileTree) (path : String) : Except FileFault Bool := do
  match ← t.target path with
  | .directory _ => return true
  | .file .. => return false
  | .absent _ => throw .missing

/-- The names in a directory. -/
def list (t : FileTree) (path : String) : Except FileFault (List String) := do
  match ← t.target path with
  | .directory place =>
    return t.entries.filterMap fun (p, _) => if p.dropLast = place then p.getLast? else none
  | .file .. => throw .notDirectory
  | .absent _ => throw .missing

/-- Runs an operation that changes a tree; if it fails, the tree stays. -/
def change (op : FileTree → Except FileFault FileTree) :
    StateM FileTree (Except FileFault Unit) := do
  match op (← get) with
  | .ok t =>
    set t
    return .ok ()
  | .error e => return .error e

instance : Files (StateM FileTree) where
  read path := do return (← get).read path
  write path content := change (·.write path content)
  makeDirectory path := change (·.makeDirectory path)
  isDirectory path := do return (← get).isDirectory path
  list path := do return (← get).list path

/-! ### Whole trees -/

/-- Puts something at a place below the working directory, with the directories on the way. -/
def plant (t : FileTree) (path : String) (e : Entry) : FileTree :=
  let parts := (Path.ofText path).parts
  let above := (List.range (parts.length - 1)).map fun n => t.home ++ parts.take (n + 1)
  (above.foldl (fun t p => t.put p .directory) t).put (t.home ++ parts) e

/-- The tree that has only its working directory. -/
def empty (home : Place) : FileTree where
  home := home
  entries := (List.range home.length).map fun n => (home.take (n + 1), .directory)

/-- The files below the working directory, with their paths from there, in order. -/
def files (t : FileTree) : List (String × Bytes) :=
  let found := t.entries.filterMap fun
    | (p, .file content) =>
      if t.home.isPrefixOf p then some ("/".intercalate (p.drop t.home.length), content) else none
    | (_, .directory) => none
  found.mergeSort fun a b => a.1 ≤ b.1

end FileTree

end AluVM
