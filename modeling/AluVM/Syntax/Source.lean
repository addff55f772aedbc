import AluVM.Syntax.Literal
import AluVM.Syntax.Scan

/-! # From a source to a program

A text that the grammar accepts denotes a program, once its numbers and strings have values.
Decimal numbers with too many digits have none; strings may have bad escapes, and then all of
them are reported. The names of characters that escapes may use are a parameter. -/

namespace AluVM.Syntax

/-- Why a text denotes no program. -/
inductive SourceError where
  /-- The grammar is violated. -/
  | fault (e : SyntaxFault)
  /-- A decimal number has too many digits. -/
  | overlong
  /-- Strings without a value, each with its place, among a number of items. -/
  | literals (items : Nat) (es : List (Position × LiteralError))
  deriving DecidableEq, Repr

/-- The reports of an error; a number with too many digits has none. -/
def SourceError.diagnostics (file : Option String) : SourceError → List Diagnostic
  | fault e => [e.diagnostic file]
  | overlong => []
  | literals _ es => es.map fun (pos, e) =>
    { severity := .error, message := "Literal de cadena inválido: " ++ e.message,
      line := some pos.line, col := some pos.col, file := file, stage := .parse }

/-- The value of a number. -/
def Token.immediate (t : Token) : Except NumberError Immediate := do
  return { value := ← Numeral.read t.text, text := t.text }

/-- The operand that words denote. -/
def Argument.operand : Argument → Except NumberError Operand
  | .number value => Operand.immediate <$> value.immediate
  | .name word => .ok (.symbol word.text)
  | .member library routine => .ok (.call library.text routine.text)
  | .indexed set index => do return .register (Text.lower set.text) (← index.immediate).value

/-- The nodes of a routine that a statement adds. -/
def Statement.nodes : Statement → Except NumberError (List Node)
  | .label name => .ok [.label name.text name.pos]
  | .instruction behind mnemonic arguments => do
    let operands ← arguments.mapM Argument.operand
    let labels := behind.toList.map fun l => Node.label l.text l.pos
    return labels ++ [.instruction ⟨Text.lower mnemonic.text, operands, mnemonic.pos⟩]
  | _ => .ok []

variable (names : CharacterNames)

/-- The bytes of a literal, none if it has no value. -/
def literalBytes (literal : Token) : Bytes :=
  match Literal.decode names literal.text with
  | .ok bytes => bytes
  | .error _ => []

/-- The item that a statement outside routines denotes, or that it starts. -/
def Statement.item? : Statement → Except NumberError (Option Item)
  | .main keyword => .ok (some (.routine ⟨none, [], keyword.pos⟩))
  | .routine name => .ok (some (.routine ⟨some name.text, [], name.pos⟩))
  | .extension name => .ok (some (.extension ⟨name.text, name.pos⟩))
  | .library name id => .ok (some (.library ⟨name.text, id.map (·.text), name.pos⟩))
  | .constant name value => do return some (.constant ⟨name.text, ← value.immediate, name.pos⟩)
  | .string name literal =>
    .ok (some (.data ⟨name.text, stringType, [.raw (literalBytes names literal)], name.pos⟩))
  | .numbers name type values => do
    let values ← values.mapM Token.immediate
    return some (.data ⟨name.text, Text.lower type.text, values.map .immediate, name.pos⟩)
  | _ => .ok none

/-- Puts nodes in front of the body of a routine. -/
def Item.prepend (nodes : List Node) : Item → Item
  | .routine r => .routine { r with body := nodes ++ r.body }
  | item => item

/-- The items of a source and the nodes that belong to a routine before it. -/
abbrev Tail := List Node × List Item

/-- Adds a statement in front of what follows it: a line of code waits for the routine that it
belongs to. -/
def addStatement (s : Statement) (tail : Tail) : Except NumberError Tail := do
  match ← s.item? names with
  | some item => return ([], item.prepend tail.1 :: tail.2)
  | none => return ((← s.nodes) ++ tail.1, tail.2)

/-- Adds statements, the last one first, in front of what follows them. -/
def addAll : (reversed : List Statement) → Tail → Except NumberError Tail
  | [], tail => .ok tail
  | s :: reversed, tail => do addAll reversed (← addStatement names s tail)

/-- The items that statements denote. -/
def itemsOf (statements : List Statement) : Except NumberError (List Item) := do
  return (← addAll names statements.reverse ([], [])).2

/-- The strings without a value among statements. -/
def badLiterals (statements : List Statement) : List (Position × LiteralError) :=
  statements.filterMap fun
    | .string _ literal =>
      match Literal.decode names literal.text with
      | .ok _ => none
      | .error e => some (literal.pos, e)
    | _ => none

/-- **The program that a text denotes.** -/
def parse (text : String) (file : Option String := none) : Except SourceError Program :=
  match readStatements text with
  | .error e => .error (.fault e)
  | .ok statements =>
    match itemsOf names statements with
    | .error _ => .error .overlong
    | .ok items =>
      match badLiterals names statements with
      | [] => .ok { items, file }
      | es => .error (.literals items.length es)

end AluVM.Syntax
