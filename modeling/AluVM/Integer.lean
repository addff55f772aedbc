import AluVM.Bytes

/-! # Integers of a given width

The range of the integers that `n` bits hold, with or without a sign, the tests whether an integer
is one of them, and their little-endian form. An integer is packed digit by digit, and only if
nothing is left of it, so packing never drops a digit. -/

namespace AluVM

/-- Why a number was refused. -/
inductive NumberError where
  /-- A width in bits must be positive. -/
  | widthNotPositive
  /-- A bit field must run from a high position down to a low one, both natural. -/
  | badBitField
  /-- The integer lies outside the range of its field. -/
  | doesNotFit
  /-- The integer is no byte. -/
  | notAByte
  /-- A size in bytes is negative. -/
  | negativeSize
  /-- A decimal numeral has more digits than are read or written. -/
  | overlong
  /-- The text is no integer. -/
  | unreadable
  deriving DecidableEq, Repr

/-- The wording of a refusal; that a number is unreadable or does not fit goes without words. -/
def NumberError.message? : NumberError → Option String
  | .widthNotPositive => some "n debe ser positivo"
  | .badBitField => some "rango de bits inválido"
  | _ => none

namespace Integer

/-- The number of values of `bits` bits. -/
def modulus (bits : Nat) : Nat := Nat.pow 2 bits

/-- Whether the integer is a natural number of `bits` bits. -/
def isUnsigned (v : Int) (bits : Nat) : Bool := 0 ≤ v && v < (modulus bits : Int)

/-- Whether the integer is one of `bits` bits, of which the highest is the sign. -/
def isSigned (v : Int) (bits : Nat) : Bool :=
  let low := -(modulus (bits - 1) : Int)
  let high := (modulus (bits - 1) : Int) - 1
  low ≤ v && v ≤ high

/-- Whether the integer is one of `bits` bits. -/
def fits (v : Int) (bits : Nat) (signed : Bool) : Bool :=
  if signed then isSigned v bits else isUnsigned v bits

/-- The least and the greatest integer of `bits` bits. -/
def bounds (bits : Nat) (signed : Bool) : Int × Int :=
  if signed then (-(modulus (bits - 1) : Int), (modulus (bits - 1) : Int) - 1)
  else (0, (modulus bits : Int) - 1)

/-- A width given as an integer, which must be positive. -/
def width (n : Int) : Except NumberError Nat :=
  if 0 < n then .ok n.toNat else .error .widthNotPositive

/-- The range of a width given as an integer. -/
def range (n : Int) (signed : Bool) : Except NumberError (Int × Int) := do
  return bounds (← width n) signed

/-- Whether an integer fits a width given as an integer. -/
def fitsWidth (v n : Int) (signed : Bool) : Except NumberError Bool := do
  return fits v (← width n) signed

/-- The least number of bytes that hold a field of the given width. -/
def byteWidth (bits : Int) : Int := (bits + 7) / 8

/-- The residue of an integer in `bits` bits. -/
def residue (v : Int) (bits : Nat) : Nat := (v % (modulus bits : Int)).toNat

/-- The residue modulo the size of an instruction word. -/
def toWord (v : Int) : Nat := residue v 64

/-- The sixteen hexadecimal digits of the residue modulo the size of an instruction word. -/
def wordHex (v : Int) : String := Bytes.toHex (Bytes.ofNat 8 (toWord v)).reverse

/-- The bits of `v` from position `high` down to position `low`. -/
def bitField (v high low : Int) : Except NumberError Nat :=
  if high < low || high < 0 || low < 0 then .error .badBitField
  else .ok (residue (v / (modulus low.toNat : Int)) (high - low + 1).toNat)

/-- The `size` lowest digits of an integer in base 256, the lowest one first, and what is left of the
integer. -/
def digits : (size : Nat) → Int → Bytes × Int
  | 0, v => ([], v)
  | size + 1, v =>
    let (high, rest) := digits size (v / 256)
    (UInt8.ofNat (v % 256).toNat :: high, rest)

/-- Whether digits are all of an integer of which `rest` is left: zero, or with a sign what the
highest bit says. No digits say nothing about the sign. -/
def isWhole (signed : Bool) (ds : Bytes) (rest : Int) : Bool :=
  if signed then
    match ds.getLast? with
    | some top => rest = if 128 ≤ top.toNat then -1 else 0
    | none => rest = 0 || rest = -1
  else rest = 0

/-- Little-endian bytes of an integer that has no more digits, in two's complement if signed. -/
def pack (v : Int) (size : Nat) (signed : Bool) : Except NumberError Bytes :=
  let (ds, rest) := digits size v
  if isWhole signed ds rest then .ok ds else .error .doesNotFit

/-- The number of bytes that an integer asks for; it has to be one of 64 bits. -/
def checkSize (size : Int) : Except NumberError Nat :=
  if !fits size 64 true then .error .doesNotFit
  else if size < 0 then .error .negativeSize
  else .ok size.toNat

/-- `pack` for a size given as an integer. -/
def packSize (v size : Int) (signed : Bool) : Except NumberError Bytes := do
  pack v (← checkSize size) signed

/-- The integer whose little-endian bytes are given, in two's complement if signed. -/
def unpack (bs : Bytes) (signed : Bool) : Int :=
  let n := bs.toNat
  if signed && modulus (8 * bs.length) ≤ 2 * n then (n : Int) - modulus (8 * bs.length) else n

end Integer

end AluVM
