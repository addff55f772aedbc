import AluVM.Bytes.Utf8
import AluVM.Numeral
import AluVM.Text.Quoted

/-! # String literals

The bytes of a string literal: its characters in UTF-8, after the escapes are replaced. An escape may
name a character; which names there are is a parameter of everything that reads literals. Places
inside a literal count in units: a character outside ASCII counts ten, a backslash before such a
character six, anything else one. -/

namespace AluVM.Syntax

/-- The characters that have names. The edition of a standard says which they are, so nothing is
assumed of them. -/
abbrev CharacterNames := String → Option Char

/-- No character has a name. -/
def nameless : CharacterNames := fun _ => none

/-- What is wrong with an escape. -/
inductive EscapeFault where
  /-- Too few hexadecimal digits after `x`. -/
  | shortByte
  /-- Too few hexadecimal digits after `u`. -/
  | shortUnit
  /-- Too few hexadecimal digits after `U`. -/
  | shortPoint
  /-- A number above the last code point. -/
  | beyondRange
  /-- No name in braces after `N`. -/
  | malformedName
  /-- A name that no character has. -/
  | unknownName
  deriving DecidableEq, Repr

/-- The wording of a fault. -/
def EscapeFault.message : EscapeFault → String
  | shortByte => "truncated \\xXX escape"
  | shortUnit => "truncated \\uXXXX escape"
  | shortPoint => "truncated \\UXXXXXXXX escape"
  | beyondRange => "illegal Unicode character"
  | malformedName => "malformed \\N character escape"
  | unknownName => "unknown Unicode character name"

/-- Why a literal has no bytes. -/
inductive LiteralError where
  /-- A NUL character. -/
  | nul
  /-- A carriage return breaks the literal off, in a given line of it. -/
  | broken (line : Nat)
  /-- A bad escape between two places of the literal, which has a given number of lines. -/
  | escape (fault : EscapeFault) (first last lines : Nat)
  /-- The first run of code points that are no characters, between two places of the decoded
  text, and its first one. -/
  | surrogates (first last code : Nat)
  deriving DecidableEq, Repr

namespace LiteralError

/-- The remark on the line of an error within the literal. -/
def lineRemark (line : Nat) : String := " (<unknown>, line " ++ toString line ++ ")"

/-- The wording of an error. -/
def message : LiteralError → String
  | nul => "source code string cannot contain null bytes"
  | broken line =>
    "unterminated string literal (detected at line " ++ toString line ++ ")" ++ lineRemark 1
  | escape fault first last lines =>
    "(unicode error) 'unicodeescape' codec can't decode bytes in position " ++ toString first ++
      "-" ++ toString last ++ ": " ++ fault.message ++ lineRemark lines
  | surrogates first last code =>
    if first = last then
      "'utf-8' codec can't encode character '\\u" ++ String.ofList (Text.hexDigits 4 code) ++
        "' in position " ++ toString first ++ ": surrogates not allowed"
    else
      "'utf-8' codec can't encode characters in position " ++ toString first ++ "-" ++
        toString last ++ ": surrogates not allowed"

end LiteralError

namespace Literal

/-- Whether the character is outside ASCII. -/
def isWide (c : Char) : Bool := 128 ≤ c.toNat

/-- The units of a character that no backslash goes with. -/
def units (c : Char) : Nat := if isWide c then 10 else 1

/-- The units of a text. A backslash goes with the character after it, so of two backslashes before
a character outside ASCII none counts six. -/
def unitsOf : List Char → Nat
  | [] => 0
  | '\\' :: c :: cs => (if isWide c then 6 else 1) + units c + unitsOf cs
  | c :: cs => units c + unitsOf cs

/-- The number of carriage returns behind a backslash before the first other carriage return, and
whether there is one. -/
def lineBreaks (count : Nat) : List Char → Nat × Bool
  | [] => (count, false)
  | c :: cs =>
    if c = '\r' then (count, true)
    else if c = '\\' then
      match cs with
      | d :: ds => lineBreaks (if d = '\r' then count + 1 else count) ds
      | [] => (count, false)
    else lineBreaks count cs

/-- Up to `limit` hexadecimal digits: the number they denote, how many there are, and the rest. -/
def hexRun : (limit : Nat) → (value count : Nat) → List Char → Nat × Nat × List Char
  | limit + 1, value, count, c :: cs =>
    match Bytes.hexValue? c with
    | some d => hexRun limit (16 * value + d) (count + 1) cs
    | none => (value, count, c :: cs)
  | _, value, count, cs => (value, count, cs)

/-- Up to `limit` octal digits: the number they denote, how many there are, and the rest. -/
def octalRun : (limit : Nat) → (value count : Nat) → List Char → Nat × Nat × List Char
  | limit + 1, value, count, c :: cs =>
    if '0' ≤ c && c ≤ '7' then octalRun limit (8 * value + (c.toNat - '0'.toNat)) (count + 1) cs
    else (value, count, c :: cs)
  | _, value, count, cs => (value, count, cs)

/-- The character of an escape of one letter. -/
def simpleEscape? (c : Char) : Option Nat :=
  match c with
  | '\\' => some 0x5c
  | '\'' => some 0x27
  | '"' => some 0x22
  | 'a' => some 0x07
  | 'b' => some 0x08
  | 'f' => some 0x0c
  | 'n' => some 0x0a
  | 'r' => some 0x0d
  | 't' => some 0x09
  | 'v' => some 0x0b
  | _ => none

/-- A bad escape: the fault and how many units of it were read. -/
abbrev BadEscape := EscapeFault × Nat

/-- A good escape: the code points it stands for, how many units it has, and the rest. -/
abbrev GoodEscape := List Nat × Nat × List Char

/-- An escape with a fixed number of hexadecimal digits. -/
def hexEscape (digits : Nat) (short : EscapeFault) (cs : List Char) : Except BadEscape GoodEscape :=
  let (value, count, rest) := hexRun digits 0 0 cs
  if count < digits then .error (short, 2 + count)
  else if 0x10ffff < value then .error (.beyondRange, 2 + count)
  else .ok ([value], 2 + count, rest)

variable (names : CharacterNames)

/-- An escape with the name of a character in braces. -/
def nameEscape (cs : List Char) : Except BadEscape GoodEscape :=
  match cs with
  | '{' :: rest =>
    let name := rest.takeWhile (· ≠ '}')
    if name.length = rest.length then .error (.malformedName, 3 + unitsOf rest)
    else if name.isEmpty then .error (.malformedName, 3)
    else
      match names (String.ofList name) with
      | some c => .ok ([c.toNat], 4 + unitsOf name, rest.drop (name.length + 1))
      | none => .error (.unknownName, 4 + unitsOf name)
  | _ => .error (.malformedName, 2)

/-- What a backslash and the characters after it stand for. An escape that is none keeps its
backslash. -/
def escapeAt (cs : List Char) : Except BadEscape GoodEscape :=
  match cs with
  | [] => .ok ([0x5c], 1, [])
  | c :: rest =>
    if isWide c then .ok ([0x5c], 6, cs)
    else if c = '\r' then .ok ([], 2, rest)
    else if '0' ≤ c && c ≤ '7' then
      let (value, count, rest) := octalRun 3 0 0 cs
      .ok ([value], 1 + count, rest)
    else if c = 'x' then hexEscape 2 .shortByte rest
    else if c = 'u' then hexEscape 4 .shortUnit rest
    else if c = 'U' then hexEscape 8 .shortPoint rest
    else if c = 'N' then nameEscape names rest
    else
      match simpleEscape? c with
      | some code => .ok ([code], 2, rest)
      | none => .ok ([0x5c, c.toNat], 2, rest)

/-- Replaces escapes, after the code points of `done`, which are in reverse order, from a given
unit on. -/
def unescape (lines : Nat) : (fuel : Nat) → (place : Nat) → (done : List Nat) → List Char →
    Except LiteralError (List Nat)
  | 0, _, done, _ => .ok done.reverse
  | _ + 1, _, done, [] => .ok done.reverse
  | fuel + 1, place, done, c :: cs =>
    if c = '\\' then
      match escapeAt names cs with
      | .ok (codes, size, rest) => unescape lines fuel (place + size) (codes.reverse ++ done) rest
      | .error (fault, size) => .error (.escape fault place (place + size - 1) lines)
    else unescape lines fuel (place + units c) (c.toNat :: done) cs

/-- Whether a code point is half of a pair and no character. -/
def isSurrogate (code : Nat) : Bool := 0xd800 ≤ code && code ≤ 0xdfff

/-- The text of code points that are all characters. -/
def toChars (codes : List Nat) : Except LiteralError (List Char) :=
  match codes.span fun code => !isSurrogate code with
  | (_, []) => .ok (codes.map Char.ofNat)
  | (before, code :: rest) =>
    .error (.surrogates before.length (before.length + (rest.takeWhile isSurrogate).length) code)

/-- The text of a literal between its quotes. -/
def decodeBody (cs : List Char) : Except LiteralError (List Char) :=
  if cs.contains '\x00' then .error .nul
  else
    match lineBreaks 0 cs with
    | (count, true) => .error (.broken (count + 1))
    | (count, false) => do toChars (← unescape names (count + 1) (cs.length + 1) 0 [] cs)

/-- **The bytes of a literal** with its quotes. -/
def decode (literal : String) : Except LiteralError Bytes := do
  let text ← decodeBody names (literal.toList.drop 1).dropLast
  return Bytes.ofText (String.ofList text)

end Literal

end AluVM.Syntax
