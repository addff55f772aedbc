/-! # Lines of a text

Lines end at a line feed, a carriage return (alone or before a line feed) and at the other line,
page and record separators. -/

namespace AluVM.Text

/-- Whether the character ends a line. -/
def isLineBreak (c : Char) : Bool :=
  let n := c.toNat
  (0xa ≤ n && n ≤ 0xd) || (0x1c ≤ n && n ≤ 0x1e) || n == 0x85 || n == 0x2028 || n == 0x2029

/-- The lines of a text, of which `line` characters of the first are already read, in reverse
order. A break at the very end starts no further line. -/
def linesFrom (line : List Char) : List Char → List (List Char)
  | [] => if line.isEmpty then [] else [line.reverse]
  | '\r' :: '\n' :: cs => line.reverse :: linesFrom [] cs
  | c :: cs => if isLineBreak c then line.reverse :: linesFrom [] cs else linesFrom (c :: line) cs

/-- The lines of a text, without their breaks. -/
def lines (s : String) : List (List Char) := linesFrom [] s.toList

/-- The position one past the last character: the number of the last line and the column after
its end. -/
def endPosition (s : String) : Nat × Nat :=
  match (lines s).getLast? with
  | none => (1, 1)
  | some last => ((lines s).length, last.length + 1)

/-- Turns carriage returns into line feeds after the characters of `done`, which are in reverse
order. -/
def unifyFrom (done : List Char) : List Char → List Char
  | [] => done.reverse
  | '\r' :: '\n' :: cs => unifyFrom ('\n' :: done) cs
  | '\r' :: cs => unifyFrom ('\n' :: done) cs
  | c :: cs => unifyFrom (c :: done) cs

/-- Turns every carriage return, alone or before a line feed, into a line feed. -/
def unifyNewlines (cs : List Char) : List Char := unifyFrom [] cs

end AluVM.Text
