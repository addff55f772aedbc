import AluVM.Bytes
import AluVM.Text.Printable

/-! # Quoted text

How a report shows a text or a byte string: between quotes, with every character that would not
show as itself written as an escape. The quotes are single ones, unless the text has a single
quote and no double one. -/

namespace AluVM.Text

/-- The quote that surrounds a text. -/
def quoteFor (hasSingle hasDouble : Bool) : Char := if hasSingle && !hasDouble then '"' else '\''

/-- The `digits` lower-case hexadecimal digits of a number, with zeros in front. -/
def hexDigits (digits n : Nat) : List Char :=
  let ds := Nat.toDigits 16 n
  List.replicate (digits - ds.length) '0' ++ ds

/-- The escapes that have a letter of their own. -/
def namedEscape? (quote c : Char) : Option (List Char) :=
  if c = '\\' || c = quote then some ['\\', c]
  else if c = '\n' then some ['\\', 'n']
  else if c = '\r' then some ['\\', 'r']
  else if c = '\t' then some ['\\', 't']
  else none

/-- One character of a quoted text. -/
def quoteChar (quote c : Char) : List Char :=
  match namedEscape? quote c with
  | some cs => cs
  | none =>
    if isPrintable c then [c]
    else if c.toNat < 0x100 then '\\' :: 'x' :: hexDigits 2 c.toNat
    else if c.toNat < 0x10000 then '\\' :: 'u' :: hexDigits 4 c.toNat
    else '\\' :: 'U' :: hexDigits 8 c.toNat

/-- A text between quotes. -/
def quote (s : String) : String :=
  let cs := s.toList
  let q := quoteFor (cs.contains '\'') (cs.contains '"')
  String.ofList (q :: cs.flatMap (quoteChar q) ++ [q])

/-- One byte of a quoted byte string. -/
def quoteByte (quote : Char) (b : UInt8) : List Char :=
  let c := Char.ofNat b.toNat
  match namedEscape? quote c with
  | some cs => cs
  | none => if 0x20 ≤ b && b < 0x7f then [c] else '\\' :: 'x' :: hexDigits 2 b.toNat

/-- A byte string between quotes, after a `b`. -/
def quoteBytes (bs : Bytes) : String :=
  let q := quoteFor (bs.contains 0x27) (bs.contains 0x22)
  String.ofList ('b' :: q :: bs.flatMap (quoteByte q) ++ [q])

end AluVM.Text
