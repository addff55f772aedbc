import AluVM.Syntax.State
import AluVM.Report.Diagnostic
import AluVM.Text.Lines

/-! # Reading a text into statements

The reader skips what means nothing, looks for a word of its state, steps, and keeps the
statement of every finished line. It stops at the first word that no source can have there. -/

namespace AluVM.Syntax

/-- What stands where no source can go on. -/
inductive Obstacle where
  /-- The end of a line. -/
  | newline
  /-- Any other word. -/
  | word (text : String)
  /-- A character that starts no word. -/
  | character (c : Char)
  /-- The end of the text. -/
  | endOfText
  deriving DecidableEq, Repr

/-- A violation of the grammar: the obstacle, its place and what could have stood there. -/
structure SyntaxFault where
  obstacle : Obstacle
  pos : Position
  expected : List Terminal
  deriving DecidableEq, Repr

/-- The obstacle that a word is. -/
def Obstacle.ofWord (t : Terminal) (text : List Char) : Obstacle :=
  if t = .newline then newline else word (String.ofList text)

/-- The wording of an obstacle. -/
def Obstacle.message : Obstacle → String
  | newline => "Token inesperado fin de línea"
  | word text => "Token inesperado " ++ Text.quote text
  | character c => "Carácter inesperado " ++ Text.quote (String.singleton c)
  | endOfText => "Fin de fichero inesperado"

/-- What was expected, as a report lists it: each class of words once, in the order of the texts. -/
def describeAll (names : List String) : List String := names.eraseDups.mergeSort (· ≤ ·)

/-- The report of a violation. -/
def SyntaxFault.diagnostic (e : SyntaxFault) (file : Option String) : Diagnostic where
  severity := .error
  message := e.obstacle.message
  line := some e.pos.line
  col := some e.pos.col
  file := file
  stage := .parse
  expected := describeAll (e.expected.map Terminal.describe)

/-- The report of a text that ends too early, where words of the given classes were expected. -/
def endDiagnostic (symbols : List String) (text : String) (file : Option String) : Diagnostic :=
  let (line, col) := Text.endPosition text
  { severity := .error, message := Obstacle.endOfText.message, line := some line,
    col := some col, file := file, stage := .parse,
    expected := describeAll (symbols.map Terminal.describeName) }

/-- Where the text after a word starts. -/
def Position.after (p : Position) (t : Terminal) (lexeme : List Char) : Position :=
  if t = .newline then ⟨p.line + 1, 1⟩ else ⟨p.line, p.col + lexeme.length⟩

/-- The violation where no word of the state is found: any other word, or a character that starts
none. -/
def obstructed (s : State) (pos : Position) (c : Char) (cs : List Char) : SyntaxFault :=
  match scanWord Terminal.all (c :: cs) with
  | some (t, lexeme, _) => ⟨.ofWord t lexeme, pos, s.scans⟩
  | none => ⟨.character c, pos, s.scans⟩

/-- Reads on from a state, after the statements of `done`, which are in reverse order. Every step
takes at least one character, so the length of the text is enough fuel. -/
def readFrom : (fuel : Nat) → State → Position → (done : List Statement) → List Char →
    Except SyntaxFault (List Statement)
  | 0, _, _, done, _ => .ok done.reverse
  | fuel + 1, s, pos, done, text =>
    let (col, text) := skip pos.col text
    let pos := ⟨pos.line, col⟩
    match text with
    | [] => if .endOfText ∈ s.allows then .ok done.reverse else .error ⟨.endOfText, pos, s.allows⟩
    | c :: cs =>
      match scanWord s.scans (c :: cs) with
      | none => .error (obstructed s pos c cs)
      | some (t, lexeme, rest) =>
        match s.step ⟨t, String.ofList lexeme, pos⟩ with
        | none => .error ⟨.ofWord t lexeme, pos, s.allows⟩
        | some next =>
          let finished := if t = .newline then s.statement?.toList else []
          readFrom fuel next (Position.after pos t lexeme) (finished ++ done) rest

/-- A text with an end for its last line. -/
def closeText (text : List Char) : List Char :=
  if text.getLast? = some '\n' then text else text ++ ['\n']

/-- **Reads a text into statements.** -/
def readStatements (text : String) : Except SyntaxFault (List Statement) :=
  let cs := closeText text.toList
  readFrom (cs.length + 1) .start ⟨1, 1⟩ [] cs

end AluVM.Syntax
