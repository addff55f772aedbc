import AluVM.Report.Failure

/-! # Wire format

Files are sequences of fields: numbers of one, two or four bytes, little end first; texts and
byte strings behind their length; and sections, which are byte strings that hold fields. Writing
fails if a number or a length is too large for its field. A reader fails at the end of its bytes
and stays where it is. -/

namespace AluVM

namespace Wire

/-! ### Writing -/

/-- A field. -/
inductive Field where
  | u8 (v : Int)
  | u16 (v : Int)
  | u32 (v : Int)
  | text (s : String)
  | blob (bytes : Bytes)
  /-- Fields behind the length of all their bytes. -/
  | nested (fields : List Field)
  deriving Repr

/-- A number in a field of `size` bytes. -/
def number (size : Nat) (v : Int) : Except Failure Bytes :=
  if 0 ≤ v && v ≤ (Integer.modulus (8 * size) : Int) - 1 then .ok (Bytes.ofNat size v.toNat)
  else .error .fieldRange

/-- Bytes behind their length, which takes `size` bytes. -/
def counted (size : Nat) (bytes : Bytes) : Except Failure Bytes := do
  return (← number size bytes.length) ++ bytes

mutual

/-- The bytes of a field. -/
def Field.encode : Field → Except Failure Bytes
  | .u8 v => number 1 v
  | .u16 v => number 2 v
  | .u32 v => number 4 v
  | .text s => counted 2 (Bytes.ofText s)
  | .blob bytes => counted 4 bytes
  | .nested fields => do counted 4 (← encodeFrom [] fields)

/-- The bytes of fields one after the other, behind those of `done`, which are in reverse order. -/
def encodeFrom (done : Bytes) : List Field → Except Failure Bytes
  | [] => .ok done.reverse
  | f :: fs => do encodeFrom ((← f.encode).reverse ++ done) fs

end

/-- The bytes of fields one after the other. -/
def encodeAll (fields : List Field) : Except Failure Bytes := encodeFrom [] fields

/-! ### Writing into a buffer -/

/-- Writing behind the bytes of a buffer: what is written stays written also if a later step fails. -/
abbrev Write := ExceptT Failure (StateM Bytes)

/-- Writes bytes. -/
def put (bytes : Bytes) : Write Unit := modify (· ++ bytes)

/-- Writes a number in a field of `size` bytes. -/
def putNumber (size : Nat) (v : Int) : Write Unit :=
  match number size v with
  | .ok bytes => put bytes
  | .error e => throw e

/-- Writes the length of bytes in a field of `size` bytes, and then the bytes. -/
def putCounted (size : Nat) (bytes : Bytes) : Write Unit := do
  putNumber size bytes.length
  put bytes

mutual

/-- Writes a field. A section is written into a buffer of its own first. -/
def Field.write : Field → Write Unit
  | .u8 v => putNumber 1 v
  | .u16 v => putNumber 2 v
  | .u32 v => putNumber 4 v
  | .text s => putCounted 2 (Bytes.ofText s)
  | .blob bytes => putCounted 4 bytes
  | .nested fields =>
    match (writeAll fields).run [] with
    | (.ok _, inner) => putCounted 4 inner
    | (.error e, _) => throw e

/-- Writes fields one after the other. -/
def writeAll : List Field → Write Unit
  | [] => pure ()
  | f :: fs => do
    f.write
    writeAll fs

end

/-! ### Reading -/

/-- Bytes that are being read: what they are, their number, how many of them are read, and the
rest. -/
structure Reader where
  what : String
  size : Nat
  pos : Nat
  rest : Bytes
  deriving DecidableEq, Repr

/-- A reader at the start of bytes. -/
def Reader.ofBytes (what : String) (bytes : Bytes) : Reader := ⟨what, bytes.length, 0, bytes⟩

/-- Reading: what is read stays read also if a later step fails. -/
abbrev Read := ExceptT FormatError (StateM Reader)

/-- Reads `n` bytes. -/
def take (n : Nat) : Read Bytes := do
  let r ← get
  if r.size < r.pos + n then throw (.truncated r.what r.pos (r.pos + n - r.size))
  set { r with pos := r.pos + n, rest := r.rest.drop n }
  return r.rest.take n

/-- Reads a number of `n` bytes. -/
def readNumber (n : Nat) : Read Nat := do return (← take n).toNat

/-- Reads a number of one byte. -/
def u8 : Read Nat := readNumber 1

/-- Reads a number of two bytes. -/
def u16 : Read Nat := readNumber 2

/-- Reads a number of four bytes. -/
def u32 : Read Nat := readNumber 4

/-- Reads a text. -/
def text : Read String := do
  let bytes ← take (← u16)
  match Bytes.toText bytes with
  | .ok s => return s
  | .error _ => throw (.notText (← get).what (← get).pos)

/-- Reads a byte string. -/
def blob : Read Bytes := do take (← u32)

/-- Reads a section and returns a reader of it. -/
def subsection : Read Reader := do
  let bytes ← blob
  return .ofBytes (← get).what bytes

/-- Checks that everything is read. -/
def expectEnd : Read Unit := do
  let r ← get
  if r.pos ≠ r.size then throw (.trailing r.what (r.size - r.pos))

/-- Reads a section with a reader of its own. -/
def inside {α : Type} (r : Read α) : Read α := do
  let inner ← subsection
  liftExcept (r.run inner).1
where
  /-- Fails as the inner reader does. -/
  liftExcept (result : Except FormatError α) : Read α :=
    match result with
    | .ok a => pure a
    | .error e => throw e

/-- Reads to the end. -/
def whole {α : Type} (r : Read α) : Read α := do
  let a ← r
  expectEnd
  return a

/-- Reads a number of things of one kind, after those of `done`, which are in reverse order. -/
def repeatFrom {α : Type} (r : Read α) (done : List α) : Nat → Read (List α)
  | 0 => pure done.reverse
  | n + 1 => do repeatFrom r ((← r) :: done) n

/-- Reads a number of things of one kind. -/
def times {α : Type} (n : Nat) (r : Read α) : Read (List α) := repeatFrom r [] n

/-- Reads all of given bytes. -/
def readAll {α : Type} (what : String) (r : Read α) (bytes : Bytes) : Except FormatError α :=
  ((whole r).run (.ofBytes what bytes)).1

/-! ### Headers -/

/-- The value of an entry field that stands for no entry. -/
def noEntry : Nat := 0xffffffff

/-- The start of a file: its mark, its version, the mask of its extensions, and its entry. -/
def header (magic : Bytes) (version : Nat) (mask : Mask) (entry : Option Int) :
    Except Failure Bytes := do
  return magic ++ (← encodeAll [.u16 version, .u32 mask, .u32 (entry.getD noEntry)])

/-- The bytes of a header. -/
def headerSize : Nat := 14

/-- Reads the mask and the entry from a header with the given mark and version. -/
def readHeader (magic : Bytes) (version : Nat) : Read (Mask × Option Int) := do
  let bytes ← take headerSize
  let what := (← get).what
  if bytes.take 4 ≠ magic then throw (.badMagic what (bytes.take 4))
  let found := Bytes.toNat ((bytes.drop 4).take 2)
  if found ≠ version then throw (.badVersion what found)
  let mask := Bytes.toNat ((bytes.drop 6).take 4)
  let entry := Bytes.toNat (bytes.drop 10)
  return (mask, if entry = noEntry then none else some entry)

end Wire

end AluVM
