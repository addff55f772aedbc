/-! # Paths

A path is a root and the names of the steps from it. Empty steps and single dots mean nothing;
two dots are kept. -/

namespace AluVM

/-- A path in a tree of files. -/
structure Path where
  /-- Empty for a relative path; one slash, or exactly two, for an absolute one. -/
  root : String
  parts : List String
  deriving DecidableEq, Repr

namespace Path

/-- The root of a text: two slashes count only if there is no third. -/
def rootOf (cs : List Char) : String :=
  match cs.takeWhile (· = '/') with
  | [] => ""
  | [_, _] => "//"
  | _ => "/"

/-- The pieces between slashes, after the characters of `piece`, which are in reverse order. -/
def pieces (piece : List Char) : List Char → List String
  | [] => [String.ofList piece.reverse]
  | c :: cs =>
    if c = '/' then String.ofList piece.reverse :: pieces [] cs else pieces (c :: piece) cs

/-- The path that a text denotes. -/
def ofText (text : String) : Path :=
  ⟨rootOf text.toList, (pieces [] text.toList).filter fun p => p ≠ "" && p ≠ "."⟩

/-- The text of a path. -/
def render (p : Path) : String :=
  if p.root.isEmpty && p.parts.isEmpty then "." else p.root ++ "/".intercalate p.parts

/-- Whether the path starts at the root. -/
def isAbsolute (p : Path) : Bool := !p.root.isEmpty

/-- The path from `p` on; an absolute path starts anew. -/
def join (p q : Path) : Path := if q.isAbsolute then q else ⟨p.root, p.parts ++ q.parts⟩

/-- The path of the directory. -/
def parent (p : Path) : Path := ⟨p.root, p.parts.dropLast⟩

/-- The last name, empty if there is none. -/
def name (p : Path) : String := p.parts.getLast?.getD ""

/-- The name without its last suffix. A dot at either end starts no suffix. -/
def stem (p : Path) : String :=
  let cs := p.name.toList
  let suffix := cs.reverse.takeWhile (· ≠ '.')
  let before := cs.length - suffix.length - 1
  if suffix.isEmpty || cs.length ≤ suffix.length + 1 then p.name else String.ofList (cs.take before)

end Path

end AluVM
