import AluVM.Syntax.Statement

/-! # The grammar as a machine

A source is read word by word. The state of the reader is the section it is in and what it has
read of the current line, so every state holds exactly the words that its statement will need.
Two sets of words belong to a state: those it can go on with (`allows`), and those the scanner
looks for (`scans`). They differ in two places: a name after an empty line is looked for before
the first section too, and behind every number a comma, a bracket and the end of the line are
looked for. A word that is looked for and not allowed is reported with what is allowed; any other
obstacle is reported with what was looked for. -/

namespace AluVM.Syntax

/-- The label and mnemonic of an instruction under way, with its complete operands in reverse
order. -/
structure Head where
  label : Option Token
  mnemonic : Token
  done : List Argument
  deriving DecidableEq, Repr

/-- What has been read of a line. -/
inductive Line where
  /-- Nothing, at the start of the text. -/
  | first
  /-- Nothing, after the end of a line. -/
  | blank
  /-- The keyword of a section without routines. -/
  | heading
  /-- `.ROUTINE`. -/
  | routine
  /-- A statement that only lacks the end of the line. -/
  | complete (s : Statement)
  /-- The name of a library. -/
  | library (name : Token)
  | libraryEquals (name : Token)
  /-- The name of a constant. -/
  | constant (name : Token)
  | constantEquals (name : Token)
  | constantValue (name value : Token)
  /-- The name of a datum. -/
  | data (name : Token)
  | dataEquals (name : Token)
  /-- A datum that needs a number next; the numbers read are in reverse order. -/
  | dataMore (name type : Token) (done : List Token)
  /-- A datum whose last word is a number. -/
  | dataValue (name type : Token) (done : List Token)
  /-- A name that is a label or a mnemonic. -/
  | word (name : Token)
  /-- A label and its colon. -/
  | labelled (name : Token)
  /-- A mnemonic behind a label. -/
  | mnemonic (label name : Token)
  /-- An operand that starts with a name. -/
  | operandName (head : Head) (name : Token)
  | operandNumber (head : Head) (value : Token)
  /-- An operand that nothing can extend, among the complete ones of the head. -/
  | operandDone (head : Head)
  /-- A comma after an operand. -/
  | operandNext (head : Head)
  | operandDot (head : Head) (library : Token)
  | operandBracket (head : Head) (set : Token)
  | operandIndex (head : Head) (set index : Token)
  deriving DecidableEq, Repr

/-- The state of the reader: the section, none before the first, and the line. -/
structure State where
  part : Option Section
  line : Line
  deriving DecidableEq, Repr

namespace Line

/-- The words that the scanner looks for. -/
def scans : Line → List Terminal
  | first => Terminal.keywords ++ [.newline]
  | blank => Terminal.keywords ++ [.name, .newline]
  | heading => [.newline]
  | routine => [.name]
  | complete _ => [.newline]
  | library _ => [.equals, .newline]
  | libraryEquals _ => [.libraryId]
  | constant _ => [.equals]
  | constantEquals _ => [.number]
  | constantValue .. => [.comma, .newline, .rightBracket]
  | data _ => [.equals]
  | dataEquals _ => [.name, .string]
  | dataMore .. => [.number]
  | dataValue .. => [.comma, .newline, .rightBracket]
  | word _ => [.colon, .name, .newline, .number]
  | labelled _ => [.name, .newline]
  | mnemonic .. => [.name, .newline, .number]
  | operandName .. => [.comma, .dot, .leftBracket, .newline]
  | operandNumber .. => [.comma, .newline, .rightBracket]
  | operandDone _ => [.comma, .newline]
  | operandNext _ => [.name, .number]
  | operandDot .. => [.name]
  | operandBracket .. => [.number]
  | operandIndex .. => [.comma, .newline, .rightBracket]

end Line

namespace State

/-- The state at the start of a text. -/
def start : State := ⟨none, .first⟩

/-- The words that the scanner looks for. -/
def scans (s : State) : List Terminal := s.line.scans

/-- The words that the state can go on with, the end of the text among them. -/
def allows (s : State) : List Terminal :=
  match s.line with
  | .first => Terminal.keywords ++ [.newline, .endOfText]
  | .blank =>
    if s.part.isSome then Terminal.keywords ++ [.name, .newline, .endOfText]
    else Terminal.keywords ++ [.newline, .endOfText]
  | .constantValue .. => [.newline]
  | .dataValue .. => [.comma, .newline]
  | .operandNumber .. => [.comma, .newline]
  | .operandIndex .. => [.rightBracket]
  | line => line.scans

/-- The state after the keyword of a section. -/
def enter (s : Section) (keyword : Token) : State :=
  ⟨some s, match s with
    | .main => .complete (.main keyword)
    | .routine => .routine
    | _ => .heading⟩

/-- What a name at the start of a line begins. -/
def begin (s : Section) (name : Token) : Line :=
  match s with
  | .isae => .complete (.extension name)
  | .libs => .library name
  | .const => .constant name
  | .data => .data name
  | .main => .word name
  | .routine => .word name

/-- The statement of a line that can end here; a line may say nothing. -/
def statement? (s : State) : Option Statement :=
  match s.line with
  | .complete statement => some statement
  | .library name => some (.library name none)
  | .constantValue name value => some (.constant name value)
  | .dataValue name type done => some (.numbers name type done.reverse)
  | .word name => some (.instruction none name [])
  | .labelled name => some (.label name)
  | .mnemonic label name => some (.instruction (some label) name [])
  | .operandName head name =>
    some (.instruction head.label head.mnemonic (.name name :: head.done).reverse)
  | .operandNumber head value =>
    some (.instruction head.label head.mnemonic (.number value :: head.done).reverse)
  | .operandDone head => some (.instruction head.label head.mnemonic head.done.reverse)
  | _ => none

/-- The line after one more word that is neither a keyword nor the end of the line. -/
def extend (s : State) (t : Token) : Option Line :=
  match s.line, t.terminal with
  | .blank, .name => s.part.map (begin · t)
  | .routine, .name => some (.complete (.routine t))
  | .library name, .equals => some (.libraryEquals name)
  | .libraryEquals name, .libraryId => some (.complete (.library name t))
  | .constant name, .equals => some (.constantEquals name)
  | .constantEquals name, .number => some (.constantValue name t)
  | .data name, .equals => some (.dataEquals name)
  | .dataEquals name, .string => some (.complete (.string name t))
  | .dataEquals name, .name => some (.dataMore name t [])
  | .dataMore name type done, .number => some (.dataValue name type (t :: done))
  | .dataValue name type done, .comma => some (.dataMore name type done)
  | .word name, .colon => some (.labelled name)
  | .word name, .name => some (.operandName ⟨none, name, []⟩ t)
  | .word name, .number => some (.operandNumber ⟨none, name, []⟩ t)
  | .labelled name, .name => some (.mnemonic name t)
  | .mnemonic label name, .name => some (.operandName ⟨label, name, []⟩ t)
  | .mnemonic label name, .number => some (.operandNumber ⟨label, name, []⟩ t)
  | .operandName head name, .comma =>
    some (.operandNext { head with done := .name name :: head.done })
  | .operandName head name, .dot => some (.operandDot head name)
  | .operandName head name, .leftBracket => some (.operandBracket head name)
  | .operandNumber head value, .comma =>
    some (.operandNext { head with done := .number value :: head.done })
  | .operandDone head, .comma => some (.operandNext head)
  | .operandNext head, .name => some (.operandName head t)
  | .operandNext head, .number => some (.operandNumber head t)
  | .operandDot head library, .name =>
    some (.operandDone { head with done := .member library t :: head.done })
  | .operandBracket head set, .number => some (.operandIndex head set t)
  | .operandIndex head set index, .rightBracket =>
    some (.operandDone { head with done := .indexed set index :: head.done })
  | _, _ => none

/-- The state after one more word that it allows. -/
def step (s : State) (t : Token) : Option State :=
  if t.terminal ∈ s.allows then
    match t.terminal with
    | .keyword k => some (enter k t)
    | .newline => some { s with line := .blank }
    | _ => (s.extend t).map fun line => { s with line }
  else none

end State

end AluVM.Syntax
