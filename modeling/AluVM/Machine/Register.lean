import AluVM.Numeral

/-! # Registers

The machine has four banks of registers, and in every bank sets of registers of one width. An
operand names a register by its set and its index; in code the set is one byte, the bank in the
high half and the width in the low one. -/

namespace AluVM

/-- A bank of registers. -/
inductive Bank where
  /-- Integers with arithmetic. -/
  | arithmetic
  /-- Floating-point numbers. -/
  | float
  /-- Bit patterns without arithmetic. -/
  | general
  /-- Byte strings. -/
  | string
  deriving DecidableEq, Repr

namespace Bank

/-- The banks in the order of their codes. -/
def all : List Bank := [arithmetic, float, general, string]

/-- The number of a bank in register codes. -/
def code : Bank → Nat
  | arithmetic => 1
  | float => 2
  | general => 3
  | string => 4

/-- The letter of a bank. -/
def letter : Bank → String
  | arithmetic => "A"
  | float => "F"
  | general => "R"
  | string => "S"

/-- The bank of a given number. -/
def ofCode? (n : Int) : Option Bank := all.find? fun b => (b.code : Int) = n

/-- The letters of banks, as a report lists them. -/
def label (banks : List Bank) : String := "/".intercalate (banks.map letter)

end Bank

/-- A set of registers of one bank and one width. -/
structure RegisterSet where
  name : String
  bank : Bank
  /-- The place of the width among those of the bank. -/
  widthClass : Nat
  /-- The width of a register in bits. -/
  bits : Nat
  /-- The number of registers. -/
  count : Nat
  deriving DecidableEq, Repr

/-- Why a register was refused. -/
inductive RegisterError where
  /-- No set has this name. -/
  | unknownSet (token : String)
  /-- No set has this code. -/
  | unknownCode (code : Int)
  /-- The set has no register of this index. -/
  | badIndex (set : RegisterSet) (index : Int)
  /-- The set has no register of an index with too many digits to be shown. -/
  | overlongIndex
  deriving DecidableEq, Repr

namespace RegisterSet

/-- The byte that stands for the set in code. -/
def code (s : RegisterSet) : Nat := 16 * s.bank.code + s.widthClass

/-- The sets of a bank, from the names and widths in the order of their classes. -/
def ofWidths (bank : Bank) (count : Nat) (widths : List (String × Nat)) : List RegisterSet :=
  widths.zipIdx.map fun ((name, bits), i) => ⟨name, bank, i, bits, count⟩

/-- All sets. -/
def all : List RegisterSet :=
  ofWidths .arithmetic 32 [("a8", 8), ("a16", 16), ("a32", 32), ("a64", 64),
      ("a128", 128), ("a256", 256), ("a512", 512), ("a1024", 1024)] ++
    ofWidths .float 32 [("f16b", 16), ("f16", 16), ("f32", 32), ("f64", 64),
      ("f80", 80), ("f128", 128), ("f256", 256), ("f512", 512)] ++
    ofWidths .general 32 [("r128", 128), ("r160", 160), ("r256", 256), ("r512", 512),
      ("r1024", 1024), ("r2048", 2048), ("r4096", 4096), ("r8192", 8192)] ++
    ofWidths .string 16 [("s16", 16)]

/-- The set of a given name; letter case and blanks around it do not matter. -/
def named? (token : String) : Option RegisterSet :=
  let key := Text.lower (Text.strip token)
  all.find? (·.name = key)

/-- The set of a given name, or the refusal. -/
def named (token : String) : Except RegisterError RegisterSet :=
  match named? token with
  | some s => .ok s
  | none => .error (.unknownSet token)

/-- The set of a given code. -/
def ofCode? (code : Int) : Option RegisterSet := all.find? fun s => (s.code : Int) = code

/-- The set of a given code, or the refusal. -/
def ofCode (code : Int) : Except RegisterError RegisterSet :=
  match ofCode? code with
  | some s => .ok s
  | none => .error (.unknownCode code)

/-- Whether the set has a register of this index. -/
def hasIndex (s : RegisterSet) (index : Int) : Bool := 0 ≤ index && index < s.count

/-- Checks that the set has a register of this index. -/
def checkIndex (s : RegisterSet) (index : Int) : Except RegisterError Unit :=
  if s.hasIndex index then .ok ()
  else if Numeral.isOverlong index then .error .overlongIndex
  else .error (.badIndex s index)

/-- The text of a register. -/
def registerText (s : RegisterSet) (index : Int) : String :=
  s.name ++ "[" ++ Numeral.decimal index ++ "]"

/-- The text of a register, unless its index has too many digits. -/
def registerName (s : RegisterSet) (index : Int) : Except NumberError String :=
  if Numeral.isOverlong index then .error .overlong else .ok (s.registerText index)

end RegisterSet

namespace RegisterError

/-- The wording of a refusal. -/
def message : RegisterError → String
  | unknownSet token => "Conjunto de registros inválido: " ++ token
  | unknownCode code =>
    "Código de registro desconocido: banco " ++ toString (Integer.residue (code / 16) 4) ++
      ", ancho " ++ toString (Integer.residue code 4)
  | badIndex set index =>
    "Índice de registro fuera de rango: " ++ set.registerText index ++ " (0.." ++
      toString (set.count - 1) ++ ")"
  | overlongIndex => Numeral.overlongText

end RegisterError

end AluVM
