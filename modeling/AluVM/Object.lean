import AluVM.Machine.Instruction
import AluVM.Symbol

/-! # Objects

An object is assembled code that is not linked yet: code with gaps, data, the symbols that fill
the gaps, and relocations that say which gap takes which symbol. -/

namespace AluVM

/-- What a relocation puts into its field. -/
inductive RelocationKind where
  /-- The offset of a label or routine of the same object. -/
  | localOffset
  /-- The index of a library and the offset of a routine in it. -/
  | externalCall
  /-- The offset of a datum. -/
  | dataAddress
  deriving DecidableEq, Repr

namespace RelocationKind

/-- All kinds. -/
def all : List RelocationKind := [localOffset, externalCall, dataAddress]

/-- The number of a kind in files. -/
def code : RelocationKind → Nat
  | localOffset => 1
  | externalCall => 2
  | dataAddress => 3

/-- The kind of a given number. -/
def ofCode? (n : Int) : Option RelocationKind := all.find? fun k => (k.code : Int) = n

/-- The kind in capitals, as listings show it. -/
def tag : RelocationKind → String
  | localOffset => "LOCAL_OFFSET"
  | externalCall => "EXTERNAL_CALL"
  | dataAddress => "DATA_ADDRESS"

end RelocationKind

/-- A field of the code, given by its offset, that is filled when its target is known. -/
structure Relocation where
  offset : Int
  kind : RelocationKind
  target : String
  deriving DecidableEq, Repr

/-- A symbol with its value. -/
structure ObjectSymbol where
  name : String
  kind : SymbolKind
  value : Int
  deriving DecidableEq, Repr

/-- A routine of a library that an object calls. -/
structure Import where
  name : String
  kind : SymbolKind := .exportedLabel
  deriving DecidableEq, Repr

/-- The local name of a library and, if the source fixes it, its id. -/
structure LibraryRef where
  name : String
  id : Option String := none
  deriving DecidableEq, Repr

/-- Assembled code that is not linked yet. -/
structure Object where
  name : String
  mask : Mask
  code : Bytes
  data : Bytes
  exports : List ObjectSymbol := []
  symbols : List ObjectSymbol := []
  imports : List Import := []
  libraries : List LibraryRef := []
  relocations : List Relocation := []
  entry : Option Int := none
  deriving DecidableEq, Repr

/-- The value of the first symbol of a given name. -/
def exportOffset? (exports : List ObjectSymbol) (name : String) : Option Int :=
  (exports.find? (·.name = name)).map (·.value)

namespace Object

/-- The first export or other symbol of a given name and, unless `kinds` is empty, of one of the
kinds. -/
def lookup? (o : Object) (name : String) (kinds : List SymbolKind) : Option ObjectSymbol :=
  (o.exports ++ o.symbols).find? fun s => s.name = name && (kinds.isEmpty || s.kind ∈ kinds)

/-- The id that the object fixes for a library. -/
def libraryId? (o : Object) (name : String) : Option String :=
  (o.libraries.find? (·.name = name)).bind (·.id)

end Object

end AluVM
