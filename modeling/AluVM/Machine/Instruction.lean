import AluVM.Machine.Extension
import AluVM.Machine.Register

/-! # The instruction set

Every instruction is one word of eight bytes: its opcode, then its operands in order, then zeros.
What operands it takes is data: a template of slots. The encoder, the analysis and the
disassembler all read the same table. -/

namespace AluVM

/-- The bytes of an instruction. -/
def wordSize : Nat := 8

/-- The greatest size of the code and of the data. -/
def maxSegment : Nat := 65536

/-- The greatest offset that a slot can hold. -/
def maxOffset : Nat := maxSegment - 1

/-- A place for an operand. -/
inductive Slot where
  /-- A register of one of the banks and, unless `sets` is empty, of one of the sets. -/
  | register (banks : List Bank) (sets : List String)
  /-- An integer of a given width. -/
  | immediate (bits : Nat) (signed : Bool)
  /-- The offset of a label or routine of the same code. -/
  | label
  /-- The offset of a datum. -/
  | data
  /-- The index of a library and the offset of a routine in it. -/
  | foreign
  deriving DecidableEq, Repr

namespace Slot

/-- The bytes that the slot takes in the word. -/
def size : Slot → Nat
  | register .. => 2
  | immediate bits _ => (bits + 7) / 8
  | label => 2
  | data => 2
  | foreign => 3

/-- The kind of a slot, as reports name it. -/
def kind : Slot → String
  | register .. => "reg"
  | immediate .. => "imm"
  | label => "label"
  | data => "data"
  | foreign => "extern"

end Slot

/-- What is to be known about an instruction. -/
structure Spec where
  mnemonic : String
  opcode : UInt8
  slots : List Slot
  /-- Whether all registers have to be of one set. -/
  sameSet : Bool := false
  extension : Extension := .alu
  deriving DecidableEq, Repr

/-- An instruction was named that does not exist. -/
structure UnknownInstruction where
  mnemonic : String
  deriving DecidableEq, Repr

/-- The wording of the refusal. -/
def UnknownInstruction.message (e : UnknownInstruction) : String :=
  "Instrucción desconocida: " ++ e.mnemonic

namespace Spec

/-- The bytes of all operands. -/
def operandBytes (s : Spec) : Nat := (s.slots.map Slot.size).foldr (· + ·) 0

/-- A register of any bank. -/
def anyReg : Slot := .register Bank.all []

/-- A register with numbers. -/
def numReg : Slot := .register [.arithmetic, .float] []

/-- A register with bits. -/
def bitReg : Slot := .register [.arithmetic, .general] []

/-- A register with integers. -/
def intReg : Slot := .register [.arithmetic] []

/-- A register with a byte string. -/
def strReg : Slot := .register [.string] []

/-- A general register of one set. -/
def wideReg (set : String) : Slot := .register [.general] [set]

/-- The instructions that steer the flow of control. -/
def control : List Spec := [
  { mnemonic := "fail", opcode := 0x00, slots := [] },
  { mnemonic := "succ", opcode := 0x01, slots := [] },
  { mnemonic := "jmp", opcode := 0x02, slots := [.label] },
  { mnemonic := "jif", opcode := 0x03, slots := [.label] },
  { mnemonic := "routine", opcode := 0x04, slots := [.label] },
  { mnemonic := "call", opcode := 0x05, slots := [.foreign] },
  { mnemonic := "exec", opcode := 0x06, slots := [.foreign] },
  { mnemonic := "ret", opcode := 0x07, slots := [] }]

/-- The instructions that load and move values. -/
def moves : List Spec := [
  { mnemonic := "put", opcode := 0x08,
    slots := [.register [.arithmetic, .general] [], .immediate 32 true] },
  { mnemonic := "putd", opcode := 0x09,
    slots := [.register [.arithmetic, .general, .string] [], .data] },
  { mnemonic := "clr", opcode := 0x0a, slots := [anyReg] },
  { mnemonic := "mov", opcode := 0x0b, slots := [anyReg, anyReg], sameSet := true },
  { mnemonic := "swp", opcode := 0x0c, slots := [anyReg, anyReg], sameSet := true },
  { mnemonic := "cnv", opcode := 0x0d, slots := [numReg, numReg] }]

/-- The instructions that compare. -/
def comparisons : List Spec := [
  { mnemonic := "eq", opcode := 0x10, slots := [anyReg, anyReg], sameSet := true },
  { mnemonic := "gt", opcode := 0x11, slots := [numReg, numReg], sameSet := true },
  { mnemonic := "lt", opcode := 0x12, slots := [numReg, numReg], sameSet := true },
  { mnemonic := "ifz", opcode := 0x13, slots := [bitReg] }]

/-- The instructions that calculate. -/
def arithmetic : List Spec := [
  { mnemonic := "add", opcode := 0x18, slots := [numReg, numReg], sameSet := true },
  { mnemonic := "sub", opcode := 0x19, slots := [numReg, numReg], sameSet := true },
  { mnemonic := "mul", opcode := 0x1a, slots := [numReg, numReg], sameSet := true },
  { mnemonic := "div", opcode := 0x1b, slots := [numReg, numReg], sameSet := true },
  { mnemonic := "inc", opcode := 0x1c, slots := [intReg, .immediate 8 false] },
  { mnemonic := "dec", opcode := 0x1d, slots := [intReg, .immediate 8 false] },
  { mnemonic := "neg", opcode := 0x1e, slots := [numReg] },
  { mnemonic := "rem", opcode := 0x1f, slots := [intReg, intReg], sameSet := true }]

/-- The instructions on bits. -/
def bitwise : List Spec := [
  { mnemonic := "and", opcode := 0x20, slots := [bitReg, bitReg, bitReg], sameSet := true },
  { mnemonic := "or", opcode := 0x21, slots := [bitReg, bitReg, bitReg], sameSet := true },
  { mnemonic := "xor", opcode := 0x22, slots := [bitReg, bitReg, bitReg], sameSet := true },
  { mnemonic := "not", opcode := 0x23, slots := [bitReg] },
  { mnemonic := "shl", opcode := 0x24, slots := [intReg, .immediate 16 false] },
  { mnemonic := "shr", opcode := 0x25, slots := [intReg, .immediate 16 false] }]

/-- The instructions on byte strings. -/
def byteStrings : List Spec := [
  { mnemonic := "bcpy", opcode := 0x28, slots := [strReg, strReg], sameSet := true },
  { mnemonic := "blen", opcode := 0x29, slots := [strReg, intReg] },
  { mnemonic := "bcat", opcode := 0x2a, slots := [strReg, strReg, strReg], sameSet := true }]

/-- The instructions that compute digests. -/
def digests : List Spec := [
  { mnemonic := "ripemd", opcode := 0x30, slots := [strReg, wideReg "r160"],
    extension := .bpdigest },
  { mnemonic := "sha256", opcode := 0x31, slots := [strReg, wideReg "r256"],
    extension := .bpdigest },
  { mnemonic := "sha512", opcode := 0x32, slots := [strReg, wideReg "r512"],
    extension := .bpdigest }]

/-- The instructions on elliptic curves. -/
def curves : List Spec := [
  { mnemonic := "secpgen", opcode := 0x38, slots := [wideReg "r256", wideReg "r512"],
    extension := .secp256k1 },
  { mnemonic := "secpmul", opcode := 0x39,
    slots := [wideReg "r256", wideReg "r512", wideReg "r512"], extension := .secp256k1 },
  { mnemonic := "secpadd", opcode := 0x3a, slots := [wideReg "r512", wideReg "r512"],
    extension := .secp256k1 },
  { mnemonic := "secpneg", opcode := 0x3b, slots := [wideReg "r512", wideReg "r512"],
    extension := .secp256k1 },
  { mnemonic := "edgen", opcode := 0x40, slots := [wideReg "r256", wideReg "r512"],
    extension := .ed25519 },
  { mnemonic := "edmul", opcode := 0x41, slots := [wideReg "r256", wideReg "r512", wideReg "r512"],
    extension := .ed25519 },
  { mnemonic := "edadd", opcode := 0x42, slots := [wideReg "r512", wideReg "r512"],
    extension := .ed25519 },
  { mnemonic := "edneg", opcode := 0x43, slots := [wideReg "r512", wideReg "r512"],
    extension := .ed25519 }]

/-- The whole instruction set. -/
def all : List Spec :=
  control ++ moves ++ comparisons ++ arithmetic ++ bitwise ++ byteStrings ++ digests ++ curves ++
    [{ mnemonic := "nop", opcode := 0xff, slots := [] }]

/-- The instruction of a given mnemonic; letter case does not matter. -/
def named? (mnemonic : String) : Option Spec :=
  let key := Text.lower mnemonic
  all.find? (·.mnemonic = key)

/-- The instruction of a given mnemonic, or the refusal. -/
def named (mnemonic : String) : Except UnknownInstruction Spec :=
  match named? mnemonic with
  | some s => .ok s
  | none => .error ⟨mnemonic⟩

/-- The instruction of a given opcode. -/
def ofOpcode? (opcode : Int) : Option Spec := all.find? fun s => (s.opcode.toNat : Int) = opcode

end Spec

end AluVM
