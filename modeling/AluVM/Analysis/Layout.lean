import AluVM.Analysis.Datum
import AluVM.Digest.ContentId

/-! # Declarations and layout

The first pass over a program: which extensions, libraries and symbols it declares, and where
everything lies. Data lie one behind the other, and every instruction takes one word, so the
offset of a label is the size of a word times the number of instructions before it. -/

namespace AluVM.Analysis

open Syntax (Program Node Routine ExtensionDecl LibraryDecl ConstantDecl DataDecl)

/-- A declaration of data at its place. -/
structure PlacedDatum where
  decl : DataDecl
  offset : Nat
  size : Nat
  deriving DecidableEq, Repr

/-- Libraries by name in the order of their first mention, with the ids that the program fixes. -/
abbrev LibraryTable := List (String × Option String)

/-- Whether a library of this name is known. -/
def LibraryTable.has (t : LibraryTable) (name : String) : Bool := t.any (·.1 = name)

/-- What the first pass knows. -/
structure Layout where
  mask : Mask := Mask.base
  libraries : LibraryTable := []
  symbols : SymbolTable := {}
  /-- The data in reverse order. -/
  data : List PlacedDatum := []
  dataSize : Nat := 0
  codeSize : Nat := 0
  entry : Option Nat := none
  deriving DecidableEq, Repr

namespace Layout

/-- Adds an extension by name. -/
def addExtension (l : Layout) (named : String × Option Position) : Layout × List Finding :=
  match l.mask.addName named.1 with
  | .ok mask => ({ l with mask }, [])
  | .error _ => (l, [⟨.unknownExtension named.1, named.2⟩])

/-- What is wrong with the id of a library. -/
def idFindings (d : LibraryDecl) : List Finding :=
  match d.id with
  | some id => if ContentId.isId id then [] else [⟨.malformedId id, some d.pos⟩]
  | none => []

/-- Adds a library; a second one of the same name is dropped. -/
def addLibrary (l : Layout) (d : LibraryDecl) : Layout × List Finding :=
  if l.libraries.has d.name then (l, [⟨.libraryRedefined d.name, some d.pos⟩])
  else ({ l with libraries := l.libraries ++ [(d.name, d.id)] }, idFindings d)

/-- The findings when a name is taken: the error and, if the place of the first symbol is known,
a remark on it. -/
def redefinition (kind : SymbolKind) (name : String) (pos : Position) (earlier : Symbol) :
    List Finding :=
  match earlier.pos.filter (·.line ≠ 0) with
  | some first =>
    [⟨.redefined kind name (some first.line), some pos⟩, ⟨.firstDeclared name, some first⟩]
  | none => [⟨.redefined kind name none, some pos⟩]

/-- Declares a symbol. One beyond the greatest offset stays without a value. -/
def declare (l : Layout) (kind : SymbolKind) (name : String) (value : Int) (pos : Position) :
    Layout × List Finding :=
  match l.symbols.get? kind.space name with
  | some earlier => (l, redefinition kind name pos earlier)
  | none =>
    if kind ≠ .constant && maxOffset < value then
      ({ l with symbols := l.symbols.declare { name, kind, pos := some pos } },
        [⟨.outOfReach kind name value, some pos⟩])
    else
      let symbol : Symbol := { name, kind, value := some value, pos := some pos }
      ({ l with symbols := l.symbols.declare symbol }, [])

/-- Declares a constant. -/
def addConstant (l : Layout) (d : ConstantDecl) : Layout × List Finding :=
  l.declare .constant d.name d.value.value d.pos

/-- Places a declaration of data of which the size is known. -/
def addDatum (l : Layout) (sized : DataDecl × Nat × List Cause) : Layout × List Finding :=
  let (d, size, causes) := sized
  let (l', found) := l.declare .dataSymbol d.name l.dataSize d.pos
  ({ l' with data := ⟨d, l.dataSize, size⟩ :: l.data, dataSize := l.dataSize + size },
    causes.map (fun c => ⟨c, some d.pos⟩) ++ found)

/-- Places a node of a routine. -/
def addNode (l : Layout) : Node → Layout × List Finding
  | .label name pos => l.declare .localLabel name l.codeSize pos
  | .instruction _ => ({ l with codeSize := l.codeSize + wordSize }, [])

/-- Opens a routine: the main routine is the entry. -/
def openRoutine (l : Layout) (r : Routine) : Layout × List Finding :=
  match r.name with
  | some name => l.declare .exportedLabel name l.codeSize r.pos
  | none =>
    if l.entry.isSome then (l, [⟨.secondMain, some r.pos⟩])
    else ({ l with entry := some l.codeSize }, [])

/-- Places a routine. -/
def addRoutine (l : Layout) (r : Routine) : Layout × List Finding :=
  let (l, opened) := l.openRoutine r
  let (l, placed) := gather addNode l r.body
  (l, opened ++ placed)

/-- What is wrong with the size of the data. -/
def dataFindings (l : Layout) : List Finding :=
  if maxSegment < l.dataSize then [⟨.dataTooLarge l.dataSize, none⟩] else []

/-- What is wrong with the size of the code. -/
def codeFindings (l : Layout) : List Finding :=
  if maxSegment < l.codeSize then [⟨.codeTooLarge l.codeSize, none⟩] else []

/-- **The layout of a program** whose data have known sizes, with extensions that are asked for
from outside. -/
def ofProgram (p : Program) (extra : List String) (sizes : List (Nat × List Cause)) :
    Layout × List Finding :=
  let asked := extra.map (fun name => (name, none)) ++
    p.extensions.map fun d => (d.name, some d.pos)
  let (l, extensions) := gather addExtension {} asked
  let (l, libraries) := gather addLibrary l p.libraries
  let (l, constants) := gather addConstant l p.constants
  let (l, data) := gather addDatum l (p.data.zip sizes)
  let (l', code) := gather addRoutine l p.routines
  (l', extensions ++ libraries ++ constants ++ data ++ l.dataFindings ++ code ++ l'.codeFindings)

end Layout

end AluVM.Analysis
