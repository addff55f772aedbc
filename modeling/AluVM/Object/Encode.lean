import AluVM.Analysis
import AluVM.Object
import AluVM.Path
import AluVM.Report.Failure

/-! # Encoding

The code of an accepted program. An instruction is its opcode, the fields of its operands in
order, and zeros up to the size of a word. The field of a name is left zero, and a relocation
says what belongs there. -/

namespace AluVM

open Syntax (Operand DataDecl stringType)

namespace Analysis

/-- The relocation that a slot demands for a name. -/
def relocationKind? : Slot → Operand → Option (RelocationKind × String)
  | .label, .label name => some (.localOffset, name)
  | .data, .datum name => some (.dataAddress, name)
  | .foreign, .call library routine => some (.externalCall, Operand.callName library routine)
  | _, _ => none

/-- The two bytes of a register. -/
def registerField (token : String) (index : Int) : Except Failure Bytes :=
  match RegisterSet.named token with
  | .error e => .error (.register e)
  | .ok set =>
    if 0 ≤ index && index < 256 then .ok [UInt8.ofNat set.code, UInt8.ofNat index.toNat]
    else .error (.number .notAByte)

/-- A cause at a place of a source. -/
def refused (cause : EncodeCause) (pos : Position) (file : Option String) : Failure :=
  Failure.checked (.encoding (.ofPlace cause pos file))

/-- The field of an operand in its slot. -/
def Placed.field (p : Placed) (file : Option String) (slot : Slot) (operand : Operand) :
    Except Failure Bytes :=
  match slot, operand with
  | .register .., .register token index => registerField token index
  | .immediate bits signed, .immediate i =>
    if Integer.fits i.value bits signed then
      (Integer.pack i.value slot.size signed).mapError .number
    else .error (refused (.immediateOverflow p.spec.mnemonic i.value bits signed) p.pos file)
  | _, _ =>
    if (relocationKind? slot operand).isSome then .ok (List.replicate slot.size 0)
    else .error (refused (.operandMismatch p.spec.mnemonic operand slot) p.pos file)

/-- The fields of operands in their slots. -/
def Placed.fields (p : Placed) (file : Option String) (pairs : List (Slot × Operand)) :
    Except Failure Bytes := do
  return (← pairs.mapM fun (slot, operand) => p.field file slot operand).flatten

/-- The relocations of operands in their slots, the first of which is at a given offset. -/
def relocationsAt (offset : Int) : List (Slot × Operand) → List Relocation
  | [] => []
  | (slot, operand) :: rest =>
    let here := match relocationKind? slot operand with
      | some (kind, target) => [⟨offset, kind, target⟩]
      | none => []
    here ++ relocationsAt (offset + slot.size) rest

/-- Fills a word with zeros. -/
def padWord (bytes : Bytes) : Bytes := bytes ++ List.replicate (wordSize - bytes.length) 0

/-- **The word of an instruction** and the relocations of its names. -/
def Placed.encode (p : Placed) (file : Option String) : Except Failure (Bytes × List Relocation) :=
  if p.operands.length ≠ p.spec.slots.length then
    .error (.encoding (.ofPlace
      (.operandCount p.spec.mnemonic p.operands.length p.spec.slots.length) p.pos file))
  else do
    let pairs := p.spec.slots.zip p.operands
    let fields ← p.fields file pairs
    return (padWord (p.spec.opcode :: fields), relocationsAt (p.offset + 1) pairs)

/-! ### Data -/

/-- The bytes of a number of a given type. -/
def numberBytes (d : DataDecl) (file : Option String) (width : Nat) (signed : Bool) :
    Operand → Except Failure Bytes
  | .immediate i =>
    if Integer.fits i.value (8 * width) signed then
      (Integer.pack i.value width signed).mapError .number
    else .error (refused (.valueOverflow d.name d.type i.value) d.pos file)
  | _ => .error .notNumeric

/-- The bytes of hexadecimal digits, none if they are not well formed. -/
def digitBytes : Operand → Except Failure (Option Bytes)
  | .immediate i => (hexBlob i.text).mapError .number
  | _ => .error .notNumeric

/-- The bytes of a declaration of data, whatever room they have. -/
def datumBytes (d : DataDecl) (file : Option String) : Except Failure Bytes :=
  if d.type = stringType then .ok (d.values.filterMap rawBytes?).flatten
  else if d.type = blobType then do
    match (← d.values.mapM digitBytes).mapM id with
    | some blobs => return blobs.flatten
    | none => throw (refused (.badBytes d.name) d.pos file)
  else
    match numericType? d.type with
    | some (width, signed) => do return (← d.values.mapM (numberBytes d file width signed)).flatten
    | none => .error .unknownType

/-- **The bytes of a declaration of data** that has a given room. -/
def encodeDatum (d : DataDecl) (reserved : Int) (file : Option String) : Except Failure Bytes := do
  let bytes ← datumBytes d file
  if (bytes.length : Int) = reserved then return bytes
  else throw (refused (.sizeMismatch d.name bytes.length reserved) d.pos file)

/-! ### Programs -/

/-- Code of a given size in which words lie at ascending offsets, from position `start` on; zeros
lie between them, and a word that reaches the end makes the code longer. -/
def layWords (size start : Nat) : List (Int × Bytes) → Bytes
  | [] => List.replicate (size - start) 0
  | (offset, word) :: rest =>
    let place := min offset.toNat (max size start)
    List.replicate (place - start) 0 ++ (word ++ layWords size (max place start + word.length) rest)

/-- The name of an object without a name of its own: that of its source without the suffix. -/
def defaultName (file : Option String) : String :=
  match file with
  | some f => if f.isEmpty then "module" else (Path.ofText f).stem
  | none => "module"

/-- The symbols of a table with their values. -/
def objectSymbols (symbols : List Symbol) : List ObjectSymbol :=
  symbols.map fun s => ⟨s.name, s.kind, s.value.getD 0⟩

/-- Relocations in the order of their offsets. -/
def sortRelocations (rs : List Relocation) : List Relocation :=
  rs.mergeSort fun r s => r.offset ≤ s.offset

/-- The object of an accepted program whose code was given a room of `size` bytes. -/
def encodeSized (a : Analysis) (size : Int) (name : Option String) : Except Failure Object := do
  if !a.ok then throw (.assembly a.diagnostics)
  let room ← (Integer.checkSize size).mapError .number
  let words ← a.code.mapM fun p => do
    let (word, relocations) ← p.encode a.file
    return (p.offset, word, relocations)
  if (a.code.length * wordSize : Nat) ≠ size then
    let cause : EncodeCause := .codeMismatch a.code.length size
    throw (Failure.checked (.encoding { cause, file := a.file }))
  let data ← a.data.mapM fun d => encodeDatum d.decl d.size a.file
  return {
    name := name.getD (defaultName a.file)
    mask := a.mask
    code := layWords room 0 (words.map fun (offset, word, _) => (offset, word))
    data := data.flatten
    exports := objectSymbols (a.symbols.ofKinds [.exportedLabel])
    symbols := objectSymbols (a.symbols.ofKinds [.localLabel, .dataSymbol])
    imports := (a.symbols.ofKinds [.importedExternal]).map fun s => { name := s.name }
    libraries := a.libraries.map fun (name, id) => ⟨name, id⟩
    relocations := sortRelocations (words.flatMap fun (_, _, relocations) => relocations)
    entry := a.entry.map fun e => (e : Int) }

/-- **The object of an accepted program.** -/
def encode (a : Analysis) (name : Option String := none) : Except Failure Object :=
  a.encodeSized a.codeSize name

end Analysis

end AluVM
