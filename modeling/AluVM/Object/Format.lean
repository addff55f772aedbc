import AluVM.Object
import AluVM.Wire

/-! # Object files

The bytes of an object: a header, the name, the code and the data, then a section for each of its
lists. -/

namespace AluVM

namespace Wire

/-- The fields of symbols: their number, then each with its name, kind and value. -/
def symbolFields (symbols : List ObjectSymbol) : List Field :=
  .u16 symbols.length :: symbols.flatMap fun s => [.text s.name, .u8 s.kind.code, .u32 s.value]

/-- Reads the kind of a symbol. -/
def readSymbolKind : Read SymbolKind := do
  let code ← u8
  match SymbolKind.ofCode? code with
  | some kind => return kind
  | none => throw (.unknownSymbolKind code)

/-- Reads a symbol. -/
def readSymbol : Read ObjectSymbol := do
  let name ← text
  let kind ← readSymbolKind
  return ⟨name, kind, ← u32⟩

/-- Reads symbols behind their number. -/
def readSymbols : Read (List ObjectSymbol) := do times (← u16) readSymbol

end Wire

namespace Object

open Wire

/-- The mark at the start of an object file. -/
def magic : Bytes := Bytes.ofText "ALUO"

/-- The version of object files. -/
def version : Nat := 1

/-- What reports call an object file. -/
def formatName : String := "módulo objeto"

/-- The fields of an object after the header. -/
def fields (o : Object) : List Field :=
  [.nested [.text o.name], .blob o.code, .blob o.data, .nested (symbolFields o.exports),
    .nested (symbolFields o.symbols),
    .nested (.u16 o.imports.length :: o.imports.flatMap fun i => [.text i.name, .u8 i.kind.code]),
    .nested (.u16 o.libraries.length ::
      o.libraries.flatMap fun l => [.text l.name, .text (l.id.getD "")]),
    .nested (.u32 o.relocations.length ::
      o.relocations.flatMap fun r => [.u32 r.offset, .u8 r.kind.code, .text r.target])]

/-- **The bytes of an object.** -/
def toBytes (o : Object) : Except Failure Bytes := do
  return (← header magic version o.mask o.entry) ++ (← encodeAll o.fields)

/-- Reads an import. -/
def readImport : Read Import := do
  let name ← text
  return ⟨name, ← readSymbolKind⟩

/-- Reads the name and id of a library; an empty id is none. -/
def readLibraryRef : Read LibraryRef := do
  let name ← text
  let id ← text
  return ⟨name, if id.isEmpty then none else some id⟩

/-- Reads a relocation. -/
def readRelocation : Read Relocation := do
  let offset ← u32
  let code ← u8
  let target ← text
  match RelocationKind.ofCode? code with
  | some kind => return ⟨offset, kind, target⟩
  | none => throw (.unknownRelocationKind code)

/-- Reads an object. What follows the name in its section is skipped. -/
def read : Read Object := do
  let (mask, entry) ← readHeader magic version
  let name ← inside text
  let code ← blob
  let data ← blob
  let exports ← inside (whole readSymbols)
  let symbols ← inside (whole readSymbols)
  let imports ← inside (whole do times (← u16) readImport)
  let libraries ← inside (whole do times (← u16) readLibraryRef)
  let relocations ← inside (whole do times (← u32) readRelocation)
  return { name, mask, code, data, exports, symbols, imports, libraries, relocations, entry }

/-- **The object of bytes.** -/
def ofBytes (bytes : Bytes) : Except FormatError Object := readAll formatName read bytes

end Object

end AluVM
