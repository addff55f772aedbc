import AluVM.Text.Blank

/-! # Byte strings

A byte string is a list of bytes. This module writes and reads its two plain forms: hexadecimal
text, two digits a byte, and little-endian natural numbers, the least significant byte first. -/

namespace AluVM

/-- A byte string. -/
abbrev Bytes := List UInt8

namespace Bytes

/-- The first `count` pieces of `size` elements each. -/
def chunks {α : Type} (size : Nat) : (count : Nat) → List α → List (List α)
  | 0, _ => []
  | count + 1, xs => xs.take size :: chunks size count (xs.drop size)

/-! ### Hexadecimal text -/

/-- The two lower-case hexadecimal digits of a byte. -/
def hexOfByte (b : UInt8) : List Char :=
  [Nat.digitChar (b.toNat / 16), Nat.digitChar (b.toNat % 16)]

/-- Hexadecimal text, two lower-case digits a byte. -/
def toHex (bs : Bytes) : String := String.ofList (bs.flatMap hexOfByte)

/-- Hexadecimal text with a space between bytes. -/
def toSpacedHex (bs : Bytes) : String :=
  " ".intercalate (bs.map fun b => String.ofList (hexOfByte b))

/-- The value of a hexadecimal digit of either case. -/
def hexValue? (c : Char) : Option Nat :=
  if '0' ≤ c && c ≤ '9' then some (c.toNat - '0'.toNat)
  else if 'a' ≤ c && c ≤ 'f' then some (c.toNat - 'a'.toNat + 10)
  else if 'A' ≤ c && c ≤ 'F' then some (c.toNat - 'A'.toNat + 10)
  else none

/-- Reads pairs of hexadecimal digits after the bytes of `done`, which are in reverse order. -/
def ofHexFrom (done : Bytes) : List Char → Option Bytes
  | [] => some done.reverse
  | c :: cs =>
    if Text.isAsciiBlank c then ofHexFrom done cs
    else
      match cs with
      | [] => none
      | d :: ds =>
        match hexValue? c, hexValue? d with
        | some high, some low => ofHexFrom (UInt8.ofNat (16 * high + low) :: done) ds
        | _, _ => none

/-- Reads pairs of hexadecimal digits; blanks may stand between pairs, not within one. -/
def ofHex? (cs : List Char) : Option Bytes := ofHexFrom [] cs

/-! ### Little-endian numbers -/

/-- The low `size` bytes of a number, least significant first. -/
def ofNat : (size : Nat) → Nat → Bytes
  | 0, _ => []
  | size + 1, n => UInt8.ofNat (n % 256) :: ofNat size (n / 256)

@[simp] theorem length_ofNat : ∀ size n : Nat, (ofNat size n).length = size
  | 0, _ => rfl
  | size + 1, n => congrArg (· + 1) (length_ofNat size (n / 256))

/-- The number whose little-endian bytes are given. -/
def toNat : Bytes → Nat
  | [] => 0
  | b :: bs => b.toNat + 256 * toNat bs

end Bytes

end AluVM
