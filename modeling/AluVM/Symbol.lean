import AluVM.Syntax.Program

/-! # Symbols

A symbol is a name with a kind and, once it is known, a value. Names are unique within a namespace,
and the kind of a symbol fixes its namespace, so that a label and a datum may share a name.

* `SymbolTable` keeps the first symbol of every name for good, in the order of declaration.
* `SymbolStore` holds symbols that can be declared in a table and resolved later, each at most
  once. -/

namespace AluVM

/-- What a symbol stands for. -/
inductive SymbolKind where
  | localLabel
  | exportedLabel
  | importedExternal
  | dataSymbol
  | constant
  deriving DecidableEq, Repr

/-- The namespaces of symbols. -/
inductive Namespace where
  | code
  | foreign
  | data
  | const
  deriving DecidableEq, Repr

namespace SymbolKind

/-- All kinds. -/
def all : List SymbolKind := [localLabel, exportedLabel, importedExternal, dataSymbol, constant]

/-- The number of a kind in files. -/
def code : SymbolKind → Nat
  | localLabel => 1
  | exportedLabel => 2
  | importedExternal => 3
  | dataSymbol => 4
  | constant => 5

/-- The kind of a given number. -/
def ofCode? (n : Int) : Option SymbolKind := all.find? fun k => (k.code : Int) = n

/-- The kind in capitals, as listings of tables show it. -/
def tag : SymbolKind → String
  | localLabel => "LOCAL_LABEL"
  | exportedLabel => "EXPORTED_LABEL"
  | importedExternal => "IMPORTED_EXTERNAL"
  | dataSymbol => "DATA_SYMBOL"
  | constant => "CONSTANT"

/-- The word for a kind. -/
def label : SymbolKind → String
  | localLabel => "etiqueta"
  | exportedLabel => "rutina"
  | importedExternal => "rutina externa"
  | dataSymbol => "dato"
  | constant => "constante"

/-- The namespace of a kind. -/
def space : SymbolKind → Namespace
  | localLabel => .code
  | exportedLabel => .code
  | importedExternal => .foreign
  | dataSymbol => .data
  | constant => .const

end SymbolKind

/-- The namespace of a given name. -/
def Namespace.named? : String → Option Namespace
  | "code" => some code
  | "extern" => some foreign
  | "data" => some data
  | "const" => some const
  | _ => none

/-- A symbol; without a value it is pending. -/
structure Symbol where
  name : String
  kind : SymbolKind
  value : Option Int := none
  pos : Option Position := none
  deriving DecidableEq, Repr

/-- Whether the symbol has this name in this namespace. -/
def Symbol.isAt (space : Namespace) (name : String) (s : Symbol) : Bool :=
  s.kind.space = space && s.name = name

/-- Why a symbol was not resolved: it has a value already. -/
inductive AlreadyResolved where
  | bound (name : String) (value : Int)
  /-- The value has too many digits to be shown. -/
  | overlong
  deriving DecidableEq, Repr

namespace AlreadyResolved

/-- The refusal to resolve a symbol with a given value. -/
def of (name : String) (value : Int) : AlreadyResolved :=
  if Numeral.isOverlong value then overlong else .bound name value

/-- The wording of a refusal. -/
def message : AlreadyResolved → String
  | bound name value => "Símbolo ya resuelto: " ++ name ++ " = " ++ Numeral.decimal value
  | overlong => Numeral.overlongText

end AlreadyResolved

/-- Gives a symbol its value, in place. A symbol that has one is left as it is. -/
def Symbol.resolve (value : Int) : ExceptT AlreadyResolved (StateM Symbol) Unit := do
  let s ← get
  if let some old := s.value then throw (.of s.name old)
  set { s with value := some value }

/-! ### Tables -/

/-- Symbols in the reverse order of their declaration. -/
structure SymbolTable where
  newestFirst : List Symbol := []
  deriving DecidableEq, Repr

namespace SymbolTable

/-- The symbols in the order of their declaration. -/
def toList (t : SymbolTable) : List Symbol := t.newestFirst.reverse

/-- The symbol of a name in a namespace. -/
def get? (t : SymbolTable) (space : Namespace) (name : String) : Option Symbol :=
  t.newestFirst.find? (Symbol.isAt space name)

/-- Adds a symbol unless its name is taken. -/
def declare (t : SymbolTable) (s : Symbol) : SymbolTable :=
  match t.get? s.kind.space s.name with
  | some _ => t
  | none => ⟨s :: t.newestFirst⟩

/-- All symbols of a name, whatever their namespace. -/
def find (t : SymbolTable) (name : String) : List Symbol := t.toList.filter (·.name = name)

/-- All symbols of the given kinds. -/
def ofKinds (t : SymbolTable) (kinds : List SymbolKind) : List Symbol :=
  t.toList.filter (·.kind ∈ kinds)

/-- The symbols without a value. -/
def pending (t : SymbolTable) : List Symbol := t.toList.filter (·.value.isNone)

end SymbolTable

/-! ### Stores -/

/-- Symbols under handles, the positions in the list, and the handles of those that are declared,
newest first. -/
structure SymbolStore where
  symbols : List Symbol := []
  declared : List Nat := []
  deriving DecidableEq, Repr

namespace SymbolStore

/-- The table of the declared symbols. -/
def table (s : SymbolStore) : SymbolTable := ⟨s.declared.filterMap (s.symbols[·]?)⟩

/-- The handle of the declared symbol of a name in a namespace. -/
def holder? (s : SymbolStore) (space : Namespace) (name : String) : Option Nat :=
  s.declared.find? fun handle => s.symbols[handle]?.any (Symbol.isAt space name)

/-- Adds a symbol that is not declared; its handle is the number of symbols before it. -/
def add (s : SymbolStore) (symbol : Symbol) : SymbolStore :=
  { s with symbols := s.symbols ++ [symbol] }

/-- An operation on a symbol under a handle. -/
inductive Operation where
  | declare (handle : Nat)
  | resolve (handle : Nat) (value : Int)
  deriving DecidableEq, Repr

/-- Work on a store: what a step has changed stays changed also if a later step fails. -/
abbrev Work := ExceptT AlreadyResolved (StateM SymbolStore)

namespace Work

/-- Declares a symbol unless its name is taken; the symbol that has the name already is returned. -/
def declare (handle : Nat) : Work (Option Nat) := do
  let s ← get
  match s.symbols[handle]? with
  | none => return none
  | some symbol =>
    let earlier := s.holder? symbol.kind.space symbol.name
    if earlier.isNone then set { s with declared := handle :: s.declared }
    return earlier

/-- Gives a pending symbol its value, declared or not. -/
def resolve (handle : Nat) (value : Int) : Work Unit := do
  let s ← get
  match s.symbols[handle]? with
  | none => return
  | some symbol =>
    let (result, symbol) := (Symbol.resolve value).run symbol
    set { s with symbols := s.symbols.set handle symbol }
    result

end Work

/-- The work of an operation, which returns a handle if the name of a symbol is taken. -/
def Operation.work : Operation → Work (Option Nat)
  | .declare handle => Work.declare handle
  | .resolve handle value => do
    Work.resolve handle value
    return none

/-- **Carries out an operation**: what it returns or why it fails, and the store after it. -/
def perform (s : SymbolStore) (op : Operation) :
    Except AlreadyResolved (Option Nat) × SymbolStore := op.work.run s

end SymbolStore

end AluVM
