/-! # Terminals

The words of the assembly language, and how the text of each is recognised at the head of the
remaining characters: every recogniser returns the longest lexeme of its class and what follows
it. Blanks, tabs and comments stand between lexemes and mean nothing. -/

namespace AluVM.Syntax

/-- The sections of a source. -/
inductive Section where
  | isae
  | libs
  | const
  | data
  | main
  | routine
  deriving DecidableEq, Repr

namespace Section

/-- All sections. -/
def all : List Section := [isae, libs, const, data, main, routine]

/-- The keyword that opens a section. -/
def keyword : Section → String
  | isae => ".ISAE"
  | libs => ".LIBS"
  | const => ".CONST"
  | data => ".DATA"
  | main => ".MAIN"
  | routine => ".ROUTINE"

end Section

/-- The classes of words. -/
inductive Terminal where
  | keyword (s : Section)
  | newline
  | name
  | number
  | string
  | libraryId
  | equals
  | comma
  | colon
  | dot
  | leftBracket
  | rightBracket
  /-- The end of the text. -/
  | endOfText
  deriving DecidableEq, Repr

namespace Terminal

/-- The keywords. -/
def keywords : List Terminal := Section.all.map keyword

/-- What a report calls a class of words: fixed words are quoted. -/
def describe : Terminal → String
  | keyword s => "\"" ++ s.keyword ++ "\""
  | newline => "fin de línea"
  | name => "identificador"
  | number => "número"
  | string => "cadena"
  | libraryId => "id de librería"
  | equals => "\"=\""
  | comma => "\",\""
  | colon => "\":\""
  | dot => "\".\""
  | leftBracket => "\"[\""
  | rightBracket => "\"]\""
  | endOfText => "fin de fichero"

/-- The name that the grammar has for a class of words; section keywords without a name of their
own are numbered. -/
def symbol : Terminal → String
  | keyword .isae => "__ANON_0"
  | keyword .libs => "__ANON_1"
  | keyword .const => "__ANON_2"
  | keyword .data => "__ANON_3"
  | keyword .main => "MAIN"
  | keyword .routine => "ROUTINE"
  | newline => "_NL"
  | name => "NAME"
  | number => "NUMBER"
  | string => "STRING"
  | libraryId => "LIB_ID"
  | equals => "EQUAL"
  | comma => "COMMA"
  | colon => "COLON"
  | dot => "DOT"
  | leftBracket => "LSQB"
  | rightBracket => "RSQB"
  | endOfText => "$END"

/-- All classes, in the order in which they are tried where any word is looked for. -/
def all : List Terminal :=
  [number, libraryId, string, name] ++ keywords ++
    [newline, equals, comma, colon, dot, leftBracket, rightBracket, endOfText]

/-- What a report calls the class with a given name of the grammar; other names stand for
themselves. -/
def describeName (symbol : String) : String :=
  match all.find? (·.symbol = symbol) with
  | some t => t.describe
  | none => symbol

end Terminal

/-! ### Lexemes -/

/-- A lexeme and the characters after it. -/
abbrev Match := List Char × List Char

/-- Recognises a fixed word. -/
def matchWord (word cs : List Char) : Option Match :=
  if word.isPrefixOf cs then some (word, cs.drop word.length) else none

/-- Whether a name may start with the character. -/
def startsName (c : Char) : Bool := c.isAlpha || c = '_'

/-- Whether a name may go on with the character. -/
def continuesName (c : Char) : Bool := c.isAlphanum || c = '_'

/-- Recognises a name: letters, digits and underscores, not a digit first. -/
def matchName (cs : List Char) : Option Match :=
  match cs with
  | c :: _ => if startsName c then some (cs.span continuesName) else none
  | [] => none

/-- A hexadecimal digit. -/
def isHexDigit (c : Char) : Bool := c.isDigit || ('a' ≤ c && c ≤ 'f') || ('A' ≤ c && c ≤ 'F')

/-- A binary digit. -/
def isBinaryDigit (c : Char) : Bool := c = '0' || c = '1'

/-- An octal digit. -/
def isOctalDigit (c : Char) : Bool := '0' ≤ c && c ≤ '7'

/-- The longest run of digits with single underscores between digits, after the characters of
`done`, which are in reverse order and end in a digit unless there are none. -/
def digitRun (isDigit : Char → Bool) (done : List Char) : List Char → Match
  | [] => (done.reverse, [])
  | c :: cs =>
    if isDigit c then digitRun isDigit (c :: done) cs
    else if c = '_' then
      match cs with
      | d :: ds =>
        if isDigit d then digitRun isDigit (d :: c :: done) ds else (done.reverse, c :: d :: ds)
      | [] => (done.reverse, [c])
    else (done.reverse, c :: cs)

/-- Recognises the digits after a mark such as `0x`, the characters of `mark` being in reverse
order. -/
def matchDigits (isDigit : Char → Bool) (mark : List Char) (cs : List Char) : Option Match :=
  match cs with
  | c :: _ => if isDigit c then some (digitRun isDigit mark cs) else none
  | [] => none

/-- Recognises an unsigned number after the sign in `sign`, if any: hexadecimal, binary and octal
numbers have a mark with at least one digit after it, everything else is decimal. -/
def matchUnsigned (sign : List Char) (cs : List Char) : Option Match :=
  let marked := match cs with
    | '0' :: m :: rest =>
      if m = 'x' || m = 'X' then matchDigits isHexDigit (m :: '0' :: sign) rest
      else if m = 'b' || m = 'B' then matchDigits isBinaryDigit (m :: '0' :: sign) rest
      else if m = 'o' || m = 'O' then matchDigits isOctalDigit (m :: '0' :: sign) rest
      else none
    | _ => none
  marked.orElse fun _ => matchDigits Char.isDigit sign cs

/-- Recognises a number with an optional sign. -/
def matchNumber (cs : List Char) : Option Match :=
  match cs with
  | c :: rest => if c = '+' || c = '-' then matchUnsigned [c] rest else matchUnsigned [] cs
  | [] => none

/-- The rest of a string after the characters of `done`, which are in reverse order: up to the
next quote; a backslash takes the character after it, whatever it is, and no line feed stands in
a string. -/
def stringRest (done : List Char) : List Char → Option Match
  | [] => none
  | c :: cs =>
    if c = '"' then some ((c :: done).reverse, cs)
    else if c = '\n' then none
    else if c = '\\' then
      match cs with
      | d :: ds => if d = '\n' then none else stringRest (d :: c :: done) ds
      | [] => none
    else stringRest (c :: done) cs

/-- Recognises a string with its quotes. -/
def matchString (cs : List Char) : Option Match :=
  match cs with
  | '"' :: rest => stringRest ['"'] rest
  | _ => none

/-- Recognises a library id: the name of an algorithm, a colon and hexadecimal digits. -/
def matchLibraryId (cs : List Char) : Option Match :=
  match cs with
  | c :: _ =>
    if c.isLower then
      let (algorithm, rest) := cs.span fun d => d.isLower || d.isDigit
      match rest with
      | ':' :: d :: ds =>
        if isHexDigit d then
          let (digits, after) := (d :: ds).span isHexDigit
          some (algorithm ++ ':' :: digits, after)
        else none
      | _ => none
    else none
  | [] => none

/-- Recognises the end of a line. -/
def matchNewline (cs : List Char) : Option Match :=
  match cs with
  | '\n' :: rest => some (['\n'], rest)
  | '\r' :: '\n' :: rest => some (['\r', '\n'], rest)
  | _ => none

/-- Recognises a word of a given class. -/
def Terminal.match? : Terminal → List Char → Option Match
  | .keyword s => matchWord s.keyword.toList
  | .newline => matchNewline
  | .name => matchName
  | .number => matchNumber
  | .string => matchString
  | .libraryId => matchLibraryId
  | .equals => matchWord ['=']
  | .comma => matchWord [',']
  | .colon => matchWord [':']
  | .dot => matchWord ['.']
  | .leftBracket => matchWord ['[']
  | .rightBracket => matchWord [']']
  | .endOfText => fun _ => none

/-- The first of the given classes that has a lexeme here. -/
def scanWord (classes : List Terminal) (cs : List Char) : Option (Terminal × Match) :=
  classes.findSome? fun t => (t.match? cs).map (t, ·)

/-- Skips blanks, tabs and comments, or the rest of a comment, and counts columns from `col` on.
A comment starts with a semicolon, a number sign or two slashes and ends before the next line
feed. -/
def skipFrom (inComment : Bool) (col : Nat) : List Char → Nat × List Char
  | [] => (col, [])
  | c :: cs =>
    if inComment then
      if c = '\n' then (col, c :: cs) else skipFrom true (col + 1) cs
    else if c = ' ' || c = '\t' then skipFrom false (col + 1) cs
    else if c = ';' || c = '#' || (c = '/' && cs.head? = some '/') then skipFrom true (col + 1) cs
    else (col, c :: cs)

/-- Skips blanks, tabs and comments. -/
def skip (col : Nat) (cs : List Char) : Nat × List Char := skipFrom false col cs

end AluVM.Syntax
