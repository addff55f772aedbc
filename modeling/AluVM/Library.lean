import AluVM.Digest.ContentId
import AluVM.Object.Format

/-! # Libraries

A library is linked code: every gap is filled, and the libraries that it calls are listed by
their ids. Its own id is the digest of its extensions, code, data and list of libraries, so that
equal content has an equal id, whatever the names in the source were. -/

namespace AluVM

/-- A call of another library: the offset of its field, the id of the library, and the offset of
the routine in it. -/
structure CallSite where
  offset : Int
  library : String
  routine : Int
  deriving DecidableEq, Repr

/-- Linked code. -/
structure Library where
  id : String
  mask : Mask
  code : Bytes
  data : Bytes
  libraries : List String := []
  exports : List ObjectSymbol := []
  calls : List CallSite := []
  entry : Option Int := none
  name : String := ""
  deriving DecidableEq, Repr

namespace Library

open Wire

/-! ### Identity -/

/-- The text at the start of everything that is digested. -/
def contentTag : Bytes := Bytes.ofText "ALULIB\x00"

/-- The normal forms of ids behind their lengths. -/
def idFields (ids : List String) : Except Failure Bytes := do
  let fields ← ids.mapM fun id => do
    match ContentId.normalize id with
    | .ok normal => (Field.text normal).encode
    | .error e => throw (.id e)
  return fields.flatten

/-- **The content that an id stands for.** -/
def canonicalBytes (mask : Mask) (code data : Bytes) (libraries : List String) :
    Except Failure Bytes :=
  match mask.manifest with
  | .error e => .error (.extension e)
  | .ok manifest => do
    let head ← encodeAll [.text manifest, .blob code, .blob data, .u16 libraries.length]
    return contentTag ++ head ++ (← idFields libraries)

/-- The id of a content. -/
def idOf (s : ContentId.Strategy) (content : Bytes) : Except Failure String :=
  (s.contentId content).mapError .id

/-- **The library with a given content**, named by its id. -/
def build (s : ContentId.Strategy) (l : Library) : Except Failure Library := do
  let libraries ← (l.libraries.mapM ContentId.normalize).mapError .id
  let id ← idOf s (← canonicalBytes l.mask l.code l.data libraries)
  return { l with id, libraries }

/-- Whether the id of a library is that of its content. -/
def verify (l : Library) : Except Failure Bool :=
  match ContentId.strategyOf l.id with
  | .error e => .error (.id e)
  | .ok s => do return (← idOf s (← canonicalBytes l.mask l.code l.data l.libraries)) = l.id

/-! ### Files -/

/-- The mark at the start of a library file. -/
def magic : Bytes := Bytes.ofText "ALUL"

/-- The version of library files. -/
def version : Nat := 1

/-- What reports call a library file. -/
def formatName : String := "librería"

/-- The bytes of a call: its library is given by its place in the list. -/
def callBytes (libraries : List String) (c : CallSite) : Except Failure Bytes := do
  let offset ← (Field.u32 c.offset).encode
  match libraries.idxOf? c.library with
  | none => throw .unlistedLibrary
  | some index => return offset ++ (← encodeAll [.u16 index, .u32 c.routine])

/-- **The bytes of a library.** -/
def toBytes (l : Library) : Except Failure Bytes := do
  let head ← header magic version l.mask l.entry
  let body ← encodeAll [.nested [.text l.name, .text l.id], .blob l.code, .blob l.data,
    .nested (.u16 l.libraries.length :: l.libraries.map .text), .nested (symbolFields l.exports)]
  let count ← (Field.u32 l.calls.length).encode
  let calls ← l.calls.mapM (callBytes l.libraries)
  return head ++ body ++ (← (Field.blob (count ++ calls.flatten)).encode)

/-- Reads a call of one of the given libraries. -/
def readCall (libraries : List String) : Read CallSite := do
  let offset ← u32
  let index ← u16
  let routine ← u32
  match libraries[index]? with
  | some library => return ⟨offset, library, routine⟩
  | none => throw (.callIndex index)

/-- Reads a library without a look at its id. What follows the names in their section is skipped. -/
def read : Read Library := do
  let (mask, entry) ← readHeader magic version
  let (name, id) ← inside do
    let name ← text
    return (name, ← text)
  let code ← blob
  let data ← blob
  let libraries ← inside (whole do times (← u16) text)
  let exports ← inside (whole readSymbols)
  let calls ← inside (whole do times (← u32) (readCall libraries))
  return { id, mask, code, data, libraries, exports, calls, entry, name }

/-- Why the id of a library cannot be checked. -/
def contentFault? : Failure → Option ContentFault
  | .id e => some (.id e)
  | .extension e => some (.extension e)
  | _ => none

/-- Checks a library that was read against its id. -/
def checkId (l : Library) : Except Failure Library :=
  match l.verify with
  | .ok true => .ok l
  | .ok false => .error (.format (.wrongId l.id))
  | .error e =>
    match contentFault? e with
    | some fault => .error (.format (.unreadableId l.id fault))
    | none => .error e

/-- **The library of bytes**; its id is that of its content. -/
def ofBytes (bytes : Bytes) : Except Failure Library := do
  checkId (← (readAll formatName read bytes).mapError .format)

end Library

end AluVM
