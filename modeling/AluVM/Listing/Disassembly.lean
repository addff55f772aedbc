import AluVM.Library

/-! # Disassembly

The text of code: one line a word, in the language of the assembler. Names that are known for
offsets stand in for them, and a field that waits for its symbol shows the name of that symbol. -/

namespace AluVM

/-- The names that a listing may use, the first one of an offset winning. -/
structure Names where
  /-- Labels and routines by offset in the code. -/
  labels : List (Int × String) := []
  /-- Data by offset. -/
  data : List (Int × String) := []
  /-- Targets of relocations by offset of their field. -/
  relocations : List (Int × String) := []
  /-- Libraries by index. -/
  libraries : List String := []
  deriving DecidableEq, Repr

/-- An offset, at least four hexadecimal digits. -/
def offsetText (v : Int) : String := Numeral.hexWide 6 v

namespace Disassembly

/-- The text of a register field. -/
def registerText : Bytes → Except Failure String
  | code :: index :: _ =>
    match RegisterSet.ofCode? code.toNat with
    | some set => .ok (set.registerText index.toNat)
    | none =>
      .ok ("?" ++ Numeral.hexWide 4 code.toNat ++ "[" ++ toString index.toNat ++ "]")
  | _ => .error .shortWord

/-- The text of a call field. -/
def callText (libraries : List String) : Bytes → Except Failure String
  | index :: offset =>
    let library := match libraries[index.toNat]? with
      | some id => id
      | none => "lib#" ++ toString index.toNat
    .ok (library ++ "+" ++ offsetText (Bytes.toNat offset))
  | [] => .error .shortWord

/-- The text of the field of a slot. -/
def fieldText (names : Names) (slot : Slot) (field : Bytes) : Except Failure String :=
  match slot with
  | .register .. => registerText field
  | .immediate _ signed => .ok (Numeral.decimal (Integer.unpack field signed))
  | .label =>
    let v : Int := Bytes.toNat field
    .ok ((names.labels.lookup v).getD ("@" ++ offsetText v))
  | .data =>
    let v : Int := Bytes.toNat field
    .ok ((names.data.lookup v).getD ("data+" ++ offsetText v))
  | .foreign => callText names.libraries field

/-- The texts of the fields of slots, the first of which is at a given offset. -/
def fieldTexts (names : Names) (offset : Int) (bytes : Bytes) :
    List Slot → Except Failure (List String)
  | [] => .ok []
  | slot :: slots => do
    let here ← match names.relocations.lookup offset with
      | some target => pure target
      | none => fieldText names slot (bytes.take slot.size)
    return here :: (← fieldTexts names (offset + slot.size) (bytes.drop slot.size) slots)

/-- **The text of a word** at a given offset. A word that is no instruction is shown as a number. -/
def word (names : Names) (offset : Int) (bytes : Bytes) : Except Failure String :=
  match bytes with
  | [] => .error .shortWord
  | opcode :: fields =>
    match Spec.ofOpcode? opcode.toNat with
    | none => .ok (".word 0x" ++ Integer.wordHex (Bytes.toNat bytes))
    | some spec => do
      let texts ← fieldTexts names (offset + 1) fields spec.slots
      return if texts.isEmpty then spec.mnemonic else spec.mnemonic ++ " " ++ ", ".intercalate texts

/-- A line of a listing. -/
structure Line where
  offset : Nat
  word : Bytes
  text : String
  deriving DecidableEq, Repr

/-- The text of a line. -/
def Line.render (l : Line) : String :=
  let digits := Nat.toDigits 16 l.offset
  String.ofList (List.replicate (4 - digits.length) '0' ++ digits) ++ ": " ++
    Bytes.toSpacedHex l.word ++ "  " ++ l.text

/-- The words of code. -/
def words (code : Bytes) : List Bytes :=
  Bytes.chunks wordSize ((code.length + wordSize - 1) / wordSize) code

/-- **The lines of code.** -/
def lines (names : Names) (code : Bytes) : Except Failure (List Line) :=
  if code.length % wordSize ≠ 0 then .error (.format (.brokenWords code.length))
  else (words code).zipIdx.mapM fun (bytes, i) => do
    return ⟨wordSize * i, bytes, ← word names (wordSize * i : Nat) bytes⟩

/-- The labels of code: the entry first, then labels and routines. -/
def labelsOf (entry : Option Int) (symbols : List ObjectSymbol) : List (Int × String) :=
  let labels := symbols.filter fun s => s.kind = .localLabel || s.kind = .exportedLabel
  entry.toList.map (·, ".MAIN") ++ labels.map fun s => (s.value, s.name)

/-- The lines of a listing, with a line of its own for every label. -/
def listing (labels : List (Int × String)) (lines : List Line) : List String :=
  lines.flatMap fun l =>
    match labels.lookup (l.offset : Int) with
    | some name => [name ++ ":", "    " ++ l.render]
    | none => ["    " ++ l.render]

/-- The names of the extensions of a mask. -/
def manifest (mask : Mask) : Except Failure String := mask.manifest.mapError .extension

end Disassembly

open Disassembly

namespace Object

/-- The names that the listing of an object uses. -/
def names (o : Object) : Names where
  labels := labelsOf o.entry (o.exports ++ o.symbols)
  data :=
    let data := (o.exports ++ o.symbols).filter (·.kind = .dataSymbol)
    (data.map fun s => (s.value, s.name)).reverse
  relocations := (o.relocations.map fun r => (r.offset, r.target)).reverse

/-- The listing of an object. -/
def disassemble (o : Object) : Except Failure (List String) := do
  let code ← lines o.names o.code
  let title := "; módulo " ++ o.name ++ " (" ++ (← manifest o.mask) ++ ")"
  return title :: listing o.names.labels code

end Object

namespace Library

/-- The listing of a library. -/
def disassemble (l : Library) : Except Failure (List String) := do
  let labels := labelsOf l.entry l.exports
  let code ← lines { labels, libraries := l.libraries } l.code
  let head := "; librería " ++ (if l.name.isEmpty then "-" else l.name) ++ " " ++ l.id ++ " (" ++
    (← manifest l.mask) ++ ")"
  let table := l.libraries.zipIdx.map fun (id, i) => "; [" ++ toString i ++ "] " ++ id
  return head :: table ++ listing labels code

end Library

end AluVM
