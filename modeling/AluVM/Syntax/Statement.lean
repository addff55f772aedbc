import AluVM.Syntax.Program
import AluVM.Syntax.Terminal

/-! # Statements

A source is a list of lines, and what one line says is a statement: the words that matter, each
with its place. Values are still text here. -/

namespace AluVM.Syntax

/-- A word of a source: its class, its text and where it starts. -/
structure Token where
  terminal : Terminal
  text : String
  pos : Position
  deriving DecidableEq, Repr

/-- An operand as words. -/
inductive Argument where
  | number (value : Token)
  | name (name : Token)
  /-- A library and a routine in it, joined by a dot. -/
  | member (library routine : Token)
  /-- A register set and an index in brackets. -/
  | indexed (set index : Token)
  deriving DecidableEq, Repr

/-- A line of a source as words. -/
inductive Statement where
  /-- The start of the main routine, at its keyword. -/
  | main (keyword : Token)
  /-- The start of a named routine. -/
  | routine (name : Token)
  | extension (name : Token)
  | library (name : Token) (id : Option Token)
  | constant (name value : Token)
  | string (name literal : Token)
  | numbers (name type : Token) (values : List Token)
  | label (name : Token)
  /-- An instruction, which may stand behind a label. -/
  | instruction (label : Option Token) (mnemonic : Token) (arguments : List Argument)
  deriving DecidableEq, Repr

end AluVM.Syntax
