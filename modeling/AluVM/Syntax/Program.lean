import AluVM.Numeral
import AluVM.Text.Quoted

/-! # Programs

What a source says, with the place of every part: extensions, libraries, constants and data in
source order, and routines with their labels and instructions. Operands occur in two forms: as
the source writes them, and, after the names have been looked up, with the kind of thing that
each name stands for. -/

namespace AluVM

/-- A place in a text: lines and columns count from one. -/
structure Position where
  line : Nat
  col : Nat
  deriving DecidableEq, Repr

namespace Syntax

/-- An integer with the text that it was written as and, once a slot is known, the width of the
slot. -/
structure Immediate where
  value : Int
  text : String := ""
  width : Nat := 0
  deriving DecidableEq, Repr

/-- An operand. -/
inductive Operand where
  /-- A register: the name of its set, which need not exist, and its index. -/
  | register (set : String) (index : Int)
  | immediate (i : Immediate)
  /-- A name whose kind is not known yet. -/
  | symbol (name : String)
  /-- A routine of a library. -/
  | call (library routine : String)
  /-- A label or routine of the same program. -/
  | label (name : String)
  /-- A datum. -/
  | datum (name : String)
  /-- The bytes of a string. -/
  | raw (bytes : Bytes)
  deriving DecidableEq, Repr

namespace Operand

/-- The full name of a routine of a library. -/
def callName (library routine : String) : String := library ++ "." ++ routine

/-- How a report shows an operand. -/
def render : Operand → String
  | register set index => set ++ "[" ++ Numeral.decimal index ++ "]"
  | immediate i => if i.text.isEmpty then Numeral.decimal i.value else i.text
  | symbol name => name
  | call library routine => callName library routine
  | label name => name
  | datum name => name
  | raw bytes => Text.quoteBytes bytes

/-- The integers that a report on the operand shows in decimal. -/
def shown : Operand → List Int
  | register _ index => [index]
  | immediate i => if i.text.isEmpty then [i.value] else []
  | _ => []

end Operand

/-- An instruction as the source writes it. -/
structure Instruction where
  mnemonic : String
  operands : List Operand
  pos : Position
  deriving DecidableEq, Repr

/-- A part of a routine. -/
inductive Node where
  | label (name : String) (pos : Position)
  | instruction (i : Instruction)
  deriving DecidableEq, Repr

/-- A routine; the main routine has no name. -/
structure Routine where
  name : Option String
  body : List Node
  pos : Position
  deriving DecidableEq, Repr

/-- A library under a local name, with its id if the source fixes it. -/
structure LibraryDecl where
  name : String
  id : Option String
  pos : Position
  deriving DecidableEq, Repr

/-- A named constant. -/
structure ConstantDecl where
  name : String
  value : Immediate
  pos : Position
  deriving DecidableEq, Repr

/-- The type of data that are given as a string. -/
def stringType : String := "str"

/-- A named piece of data: values of one type. -/
structure DataDecl where
  name : String
  type : String
  values : List Operand
  pos : Position
  deriving DecidableEq, Repr

/-- An extension that the source asks for. -/
structure ExtensionDecl where
  name : String
  pos : Position
  deriving DecidableEq, Repr

/-- A part of a program. -/
inductive Item where
  | extension (d : ExtensionDecl)
  | library (d : LibraryDecl)
  | constant (d : ConstantDecl)
  | data (d : DataDecl)
  | routine (r : Routine)
  deriving DecidableEq, Repr

/-- A program: its parts in source order. -/
structure Program where
  items : List Item
  file : Option String := none
  deriving DecidableEq, Repr

namespace Program

/-- The extensions that the program asks for. -/
def extensions (p : Program) : List ExtensionDecl :=
  p.items.filterMap fun | .extension d => some d | _ => none

/-- The libraries of the program. -/
def libraries (p : Program) : List LibraryDecl :=
  p.items.filterMap fun | .library d => some d | _ => none

/-- The constants of the program. -/
def constants (p : Program) : List ConstantDecl :=
  p.items.filterMap fun | .constant d => some d | _ => none

/-- The data of the program. -/
def data (p : Program) : List DataDecl :=
  p.items.filterMap fun | .data d => some d | _ => none

/-- The routines of the program. -/
def routines (p : Program) : List Routine :=
  p.items.filterMap fun | .routine r => some r | _ => none

/-- The nodes of all routines in source order. -/
def nodes (p : Program) : List Node := p.routines.flatMap (·.body)

/-- The instructions of the program in source order. -/
def instructions (p : Program) : List Instruction :=
  p.nodes.filterMap fun | .instruction i => some i | _ => none

end Program

end Syntax

end AluVM
