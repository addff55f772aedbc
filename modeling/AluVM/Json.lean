import AluVM.Dict
import AluVM.Numeral

/-! # JSON

Reading of JSON texts. Besides the standard forms, `NaN` and the infinities are numbers. Of
several values of a key the last one counts, at the place of the first. Values may be nested
`maxDepth` levels deep. An error is what was expected and the line on which it was. -/

namespace AluVM

/-- A JSON value; numbers are kept as they are written. -/
inductive Json where
  | null
  | bool (b : Bool)
  | number (text : String)
  | string (s : String)
  | array (values : List Json)
  | object (fields : List (String × Json))

namespace Json

/-- What is wrong at a place of a text. -/
inductive Fault where
  | byteOrderMark
  | expectedValue
  | expectedKey
  | expectedColon
  | expectedComma
  | extraData
  | unterminatedString
  | controlCharacter
  | badEscape
  | badUnicodeEscape
  deriving DecidableEq, Repr

/-- The wording of a fault. -/
def Fault.message : Fault → String
  | byteOrderMark => "Unexpected UTF-8 BOM (decode using utf-8-sig)"
  | expectedValue => "Expecting value"
  | expectedKey => "Expecting property name enclosed in double quotes"
  | expectedColon => "Expecting ':' delimiter"
  | expectedComma => "Expecting ',' delimiter"
  | extraData => "Extra data"
  | unterminatedString => "Unterminated string starting at"
  | controlCharacter => "Invalid control character at"
  | badEscape => "Invalid \\escape"
  | badUnicodeEscape => "Invalid \\uXXXX escape"

/-- Why a text is refused. -/
inductive Error where
  /-- A fault and its line. -/
  | fault (f : Fault) (line : Nat)
  /-- An integer has too many digits. -/
  | overlong
  /-- Values are nested too deeply. -/
  | tooDeep
  deriving DecidableEq, Repr

/-- Why reading stopped; a fault comes with the text from its place on. -/
inductive Stop where
  | fault (f : Fault) (rest : List Char)
  | overlong
  | tooDeep
  deriving DecidableEq, Repr

/-- Whether a character may stand between the parts of a value. -/
def isBlank (c : Char) : Bool := c = ' ' || c = '\t' || c = '\n' || c = '\r'

/-- The text from the next part on. -/
def skipBlanks (cs : List Char) : List Char := cs.dropWhile isBlank

/-! ### Strings -/

/-- The number that hexadecimal digits denote. -/
def hexValue? (digits : List Char) : Option Nat :=
  digits.foldlM
    (fun n c =>
      if '0' ≤ c && c ≤ '9' then some (16 * n + (c.toNat - '0'.toNat))
      else if 'a' ≤ c && c ≤ 'f' then some (16 * n + (c.toNat - 'a'.toNat + 10))
      else if 'A' ≤ c && c ≤ 'F' then some (16 * n + (c.toNat - 'A'.toNat + 10))
      else none) 0

/-- The character that a letter after a backslash stands for. -/
def escaped? (c : Char) : Option Char :=
  match c with
  | '"' => some '"'
  | '\\' => some '\\'
  | '/' => some '/'
  | 'b' => some '\x08'
  | 'f' => some '\x0c'
  | 'n' => some '\n'
  | 'r' => some '\r'
  | 't' => some '\t'
  | _ => none

/-- Reads a string up to its closing quote as a sequence of code points and surrogates, after
those of `done`, which are in reverse order; `start` is the text from the opening quote on. Four
hexadecimal digits are only read if more text follows them. -/
def units (start : List Char) (done : List Nat) : List Char → Except Stop (List Nat × List Char)
  | [] => .error (.fault .unterminatedString start)
  | '"' :: rest => .ok (done.reverse, rest)
  | ['\\'] => .error (.fault .unterminatedString start)
  | '\\' :: 'u' :: a :: b :: c :: d :: e :: rest =>
    match hexValue? [a, b, c, d] with
    | some n => units start (n :: done) (e :: rest)
    | none => .error (.fault .badUnicodeEscape ('\\' :: 'u' :: a :: b :: c :: d :: e :: rest))
  | '\\' :: c :: rest =>
    if c = 'u' then .error (.fault .badUnicodeEscape ('\\' :: c :: rest))
    else
      match escaped? c with
      | some c => units start (c.toNat :: done) rest
      | none => .error (.fault .badEscape ('\\' :: c :: rest))
  | c :: rest =>
    if c.toNat ≤ 0x1f then .error (.fault .controlCharacter (c :: rest))
    else units start (c.toNat :: done) rest

/-- The character of a code point. A text has no place for half of a pair: a surrogate that stands
alone becomes the replacement character, so that strings which only differ there are not told
apart. -/
def ofUnit (n : Nat) : Char := if 0xd800 ≤ n && n ≤ 0xdfff then '\ufffd' else Char.ofNat n

/-- The characters of code points and surrogates: two surrogates that fit make one character. -/
def joinUnits : List Nat → List Char
  | [] => []
  | [n] => [ofUnit n]
  | high :: low :: rest =>
    if 0xd800 ≤ high && high ≤ 0xdbff && 0xdc00 ≤ low && low ≤ 0xdfff then
      Char.ofNat (0x10000 + (high - 0xd800) * 0x400 + (low - 0xdc00)) :: joinUnits rest
    else ofUnit high :: joinUnits (low :: rest)

/-- Reads a string after its opening quote. -/
def readString (rest : List Char) : Except Stop (String × List Char) := do
  let (ns, rest) ← units ('"' :: rest) [] rest
  return (String.ofList (joinUnits ns), rest)

/-! ### Numbers and words -/

/-- Whether a character is a decimal digit. -/
def isDigit (c : Char) : Bool := '0' ≤ c && c ≤ '9'

/-- The digits of an integer without leading zeros, and the rest. -/
def readWhole? : List Char → Option (List Char × List Char)
  | '0' :: rest => some (['0'], rest)
  | c :: rest => if isDigit c then some ((c :: rest).span isDigit) else none
  | [] => none

/-- The fraction at the front of a text, empty if there is none. -/
def readFraction : List Char → List Char × List Char
  | '.' :: c :: rest =>
    if isDigit c then
      let (digits, rest) := (c :: rest).span isDigit
      ('.' :: digits, rest)
    else ([], '.' :: c :: rest)
  | cs => ([], cs)

/-- The exponent at the front of a text, empty if there is none. -/
def readExponent (cs : List Char) : List Char × List Char :=
  match cs with
  | [] => ([], [])
  | c :: after =>
    if c = 'e' || c = 'E' then
      let (sign, after) := match after with
        | s :: more => if s = '+' || s = '-' then ([s], more) else ([], after)
        | [] => ([], [])
      let (digits, rest) := after.span isDigit
      if digits.isEmpty then ([], cs) else (c :: sign ++ digits, rest)
    else ([], cs)

/-- Reads a number. -/
def readNumber (cs : List Char) : Except Stop (Json × List Char) :=
  let (sign, after) := match cs with
    | '-' :: rest => (['-'], rest)
    | _ => ([], cs)
  match readWhole? after with
  | none => .error (.fault .expectedValue cs)
  | some (whole, rest) =>
    let (fraction, rest) := readFraction rest
    let (exponent, rest) := readExponent rest
    let isInteger := fraction.isEmpty && exponent.isEmpty
    if isInteger && Numeral.maxDigits < whole.length then .error .overlong
    else .ok (number (String.ofList (sign ++ whole ++ fraction ++ exponent)), rest)

/-- The words that are values. -/
def words : List (List Char × Json) :=
  [("null".toList, null), ("true".toList, bool true), ("false".toList, bool false),
    ("NaN".toList, number "NaN"), ("Infinity".toList, number "Infinity"),
    ("-Infinity".toList, number "-Infinity")]

/-- Reads a word or a number. -/
def readAtom (cs : List Char) : Except Stop (Json × List Char) :=
  match words.find? fun w => w.1.isPrefixOf cs with
  | some (word, value) => .ok (value, cs.drop word.length)
  | none => readNumber cs

/-! ### Values -/

/-- Reads the key of a field and the colon behind it. -/
def readKey (cs : List Char) : Except Stop (String × List Char) :=
  match cs with
  | '"' :: rest => do
    let (key, rest) ← readString rest
    match skipBlanks rest with
    | ':' :: rest => return (key, skipBlanks rest)
    | other => throw (.fault .expectedColon other)
  | _ => .error (.fault .expectedKey cs)

/-- Reads what follows one of several values: nothing after the closing bracket, else the text
after the comma. -/
def readSeparator (close : Char) (cs : List Char) : Except Stop (Option (List Char) × List Char) :=
  match skipBlanks cs with
  | c :: rest =>
    if c = close then .ok (none, rest)
    else if c = ',' then .ok (some (skipBlanks rest), [])
    else .error (.fault .expectedComma (c :: rest))
  | [] => .error (.fault .expectedComma [])

/-- Reads the values of an array after those of `done`, which are in reverse order. Every further
value takes a comma, so one more than the length of the text is enough fuel. -/
def readArray (item : List Char → Except Stop (Json × List Char)) :
    (fuel : Nat) → (done : List Json) → List Char → Except Stop (Json × List Char)
  | 0, _, cs => .error (.fault .expectedValue cs)
  | fuel + 1, done, cs => do
    let (value, rest) ← item cs
    match ← readSeparator ']' rest with
    | (none, rest) => return (array (value :: done).reverse, rest)
    | (some rest, _) => readArray item fuel (value :: done) rest

/-- Reads the fields of an object after those of `done`, which are in reverse order. Every further
field takes a comma, so one more than the length of the text is enough fuel. -/
def readObject (item : List Char → Except Stop (Json × List Char)) :
    (fuel : Nat) → (done : List (String × Json)) → List Char → Except Stop (Json × List Char)
  | 0, _, cs => .error (.fault .expectedKey cs)
  | fuel + 1, done, cs => do
    let (key, rest) ← readKey cs
    let (value, rest) ← item rest
    match ← readSeparator '\x7d' rest with
    | (none, rest) => return (object (Dict.ofList ((key, value) :: done).reverse), rest)
    | (some rest, _) => readObject item fuel ((key, value) :: done) rest

/-- Reads a value with at most `depth` levels of brackets. -/
def readValue (depth : Nat) (cs : List Char) : Except Stop (Json × List Char) :=
  match cs with
  | '"' :: rest => do
    let (s, rest) ← readString rest
    return (string s, rest)
  | '[' :: rest =>
    match depth with
    | 0 => .error .tooDeep
    | depth + 1 =>
      match skipBlanks rest with
      | ']' :: rest => .ok (array [], rest)
      | rest => readArray (readValue depth) (rest.length + 1) [] rest
  | '\x7b' :: rest =>
    match depth with
    | 0 => .error .tooDeep
    | depth + 1 =>
      match skipBlanks rest with
      | '\x7d' :: rest => .ok (object [], rest)
      | rest => readObject (readValue depth) (rest.length + 1) [] rest
  | cs => readAtom cs

/-- The greatest number of levels of brackets. -/
def maxDepth : Nat := 990

/-- Reads a value that takes the whole text. -/
def readWholeText (cs : List Char) : Except Stop Json :=
  if cs.head? = some '\ufeff' then .error (.fault .byteOrderMark cs)
  else do
    let (value, rest) ← readValue maxDepth (skipBlanks cs)
    match skipBlanks rest with
    | [] => return value
    | rest => throw (.fault .extraData rest)

/-- The line on which the rest of a text starts. -/
def lineOf (cs rest : List Char) : Nat := 1 + cs.count '\n' - rest.count '\n'

/-- **The value that a text denotes.** -/
def parse (cs : List Char) : Except Error Json :=
  (readWholeText cs).mapError fun
    | .fault f rest => .fault f (lineOf cs rest)
    | .overlong => .overlong
    | .tooDeep => .tooDeep

end Json

end AluVM
