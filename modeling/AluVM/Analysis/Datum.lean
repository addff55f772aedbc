import AluVM.Analysis.Finding

/-! # The size of data

A declaration of data takes the bytes of its string, of its hexadecimal digits, or a fixed number
of bytes for each of its numbers. A declaration with something wrong takes what the sound part of
it takes. -/

namespace AluVM.Analysis

open Syntax (Operand DataDecl stringType)

/-- The bytes that hexadecimal text denotes, two digits a byte, leading zeros included; none if
the text has no mark, no digits or an odd number of them. Underscores are dropped. -/
def hexBlob (text : String) : Except NumberError (Option Bytes) :=
  match Text.lowerChars (text.toList.filter (· ≠ '_')) with
  | '0' :: 'x' :: digits =>
    if digits.isEmpty || digits.length % 2 = 1 then .ok none
    else
      match Bytes.ofHex? digits with
      | some bytes => .ok (some bytes)
      | none => .error .unreadable
  | _ => .ok none

/-- The bytes that a value of the type of digits denotes. -/
def blobOf : Operand → Except NumberError (Option Bytes)
  | .immediate i => hexBlob i.text
  | _ => .ok none

/-- The width and sign of a numeric type. -/
def numericType? (type : String) : Option (Nat × Bool) := numericTypes.lookup type

/-- What is wrong with a number of a given type. -/
def valueCause? (d : DataDecl) (width : Nat) (signed : Bool) : Operand → Option Cause
  | .immediate i =>
    if Integer.fits i.value (8 * width) signed then none
    else
      some (.valueRange d.type d.name i.value (Integer.bounds (8 * width) signed).1
        (Integer.bounds (8 * width) signed).2)
  | _ => none

/-- The bytes of a string, none for another value. -/
def rawBytes? : Operand → Option Bytes
  | .raw bytes => some bytes
  | _ => none

/-- What is wrong with a value of the type of digits, given the bytes that it denotes. -/
def blobCause? (d : DataDecl) (value : Operand) (blob : Option Bytes) : Option Cause :=
  if blob.isSome then none else some (.badBytes d.name value)

/-- The bytes that a declaration takes, and what is wrong with it. -/
def datumSize (d : DataDecl) : Except NumberError (Nat × List Cause) :=
  if d.type = stringType then
    match d.values.mapM rawBytes? with
    | some strings => .ok (strings.flatten.length, [])
    | none => .ok (0, [.numericString d.name])
  else if d.type = blobType then do
    let blobs ← d.values.mapM blobOf
    return ((blobs.flatMap fun b => b.getD []).length,
      (d.values.zip blobs).filterMap fun (v, b) => blobCause? d v b)
  else
    match numericType? d.type with
    | some (width, signed) =>
      .ok (width * d.values.length, d.values.filterMap (valueCause? d width signed))
    | none => .ok (0, [.unknownType d.type])

end AluVM.Analysis
