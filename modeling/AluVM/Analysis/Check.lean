import AluVM.Analysis.Layout

/-! # References and operands

The second pass over a program: every instruction is checked against its template, and names are
replaced by what they stand for. A faulty instruction is left out of the result and never hides
the faults of another one. -/

namespace AluVM.Analysis

open Syntax (Operand Instruction Immediate)

/-- An instruction at its place, with its template and its operands classified. -/
structure Placed where
  offset : Int
  spec : Spec
  operands : List Operand
  pos : Position
  deriving DecidableEq, Repr

/-- What the second pass knows: symbols and libraries, to which routines of libraries add, and
the libraries in use. -/
structure Scope where
  symbols : SymbolTable
  libraries : LibraryTable
  used : List String := []
  deriving DecidableEq, Repr

namespace Scope

/-- The cause when a name is not in the namespace where it is looked for. -/
def missing (s : Scope) (name : String) (demanded : SymbolKind) : Cause :=
  match s.symbols.find name with
  | other :: _ => .wrongKind name other.kind demanded
  | [] => .undefinedSymbol name
      ((s.symbols.toList.filter (·.kind ≠ .importedExternal)).map (·.name))

/-- Looks a name up where symbols of the demanded kind are. -/
def lookup (s : Scope) (name : String) (demanded : SymbolKind) : Except Cause Symbol :=
  match s.symbols.get? demanded.space name with
  | some symbol => .ok symbol
  | none => .error (s.missing name demanded)

/-- Checks a register. -/
def checkRegister (mnemonic : String) (banks : List Bank) (sets : List String) :
    Operand → Except Cause Operand
  | .register token index =>
    match RegisterSet.named token with
    | .error e => .error (.badRegister e)
    | .ok set =>
      if set.bank ∉ banks then .error (.bankRefused mnemonic set.name banks)
      else if !sets.isEmpty && set.name ∉ sets then .error (.setRefused mnemonic set.name sets)
      else
        match set.checkIndex index with
        | .error e => .error (.badRegister e)
        | .ok () => .ok (.register set.name index)
  | operand => .error (.registerExpected mnemonic banks operand)

/-- Checks that a value fits its slot. -/
def checkValue (bits : Nat) (signed : Bool) (value : Int) (text : String) : Except Cause Operand :=
  if Integer.fits value bits signed then .ok (.immediate ⟨value, text, bits⟩)
  else .error (.immediateRange value bits signed)

/-- Checks an integer, which may be a constant. -/
def checkImmediate (s : Scope) (mnemonic : String) (bits : Nat) (signed : Bool) :
    Operand → Except Cause Operand
  | .immediate i => checkValue bits signed i.value i.text
  | .symbol name => do
    let symbol ← s.lookup name .constant
    checkValue bits signed (symbol.value.getD 0) name
  | operand => .error (.immediateExpected mnemonic operand)

/-- Checks a label. -/
def checkLabel (s : Scope) (mnemonic : String) : Operand → Except Cause Operand
  | .symbol name => do
    let _ ← s.lookup name .localLabel
    return .label name
  | .call library routine => .error (.externalLabel mnemonic (.call library routine))
  | operand => .error (.labelExpected mnemonic operand)

/-- Checks a datum. -/
def checkDatum (s : Scope) (mnemonic : String) : Operand → Except Cause Operand
  | .symbol name => do
    let _ ← s.lookup name .dataSymbol
    return .datum name
  | operand => .error (.datumExpected mnemonic operand)

/-- Checks a routine of a library. -/
def checkCall (s : Scope) (mnemonic : String) : Operand → Except Cause Operand
  | .call library routine => .ok (.call library routine)
  | .symbol name =>
    let own := if (s.symbols.get? .code name).isSome then some name else none
    .error (.callExpected mnemonic (.symbol name) own)
  | operand => .error (.callExpected mnemonic operand none)

/-- Checks an operand against its slot. -/
def checkOperand (s : Scope) (mnemonic : String) (operand : Operand) : Slot → Except Cause Operand
  | .register banks sets => checkRegister mnemonic banks sets operand
  | .immediate bits signed => s.checkImmediate mnemonic bits signed operand
  | .label => s.checkLabel mnemonic operand
  | .data => s.checkDatum mnemonic operand
  | .foreign => s.checkCall mnemonic operand

/-- Records the use of a routine of a library: the library is known from now on, and the routine
is a pending symbol. -/
def addCall (s : Scope) (library routine : String) (pos : Position) : Scope where
  symbols := s.symbols.declare
    { name := Operand.callName library routine, kind := .importedExternal, pos := some pos }
  libraries := if s.libraries.has library then s.libraries else s.libraries ++ [(library, none)]
  used := if library ∈ s.used then s.used else library :: s.used

/-- Records what an operand uses. -/
def addOperand (s : Scope) (pos : Position) (slot : Slot) (operand : Operand) : Scope :=
  match slot, operand with
  | .foreign, .call library routine => s.addCall library routine pos
  | _, _ => s

/-- Checks operands against their slots, each whatever the others are. -/
def checkOperands (s : Scope) (i : Instruction) :
    List (Operand × Slot) → Scope × List (Except Cause Operand)
  | [] => (s, [])
  | (operand, slot) :: rest =>
    let result := s.checkOperand i.mnemonic operand slot
    let (s, results) := (s.addOperand i.pos slot operand).checkOperands i rest
    (s, result :: results)

end Scope

/-- The cause of a refused operand. -/
def causeOf? : Except Cause Operand → Option Cause
  | .ok _ => none
  | .error c => some c

/-- An accepted operand. -/
def operandOf? : Except Cause Operand → Option Operand
  | .ok operand => some operand
  | .error _ => none

/-- The register sets of operands, each once, in the order of their names. -/
def setsOf (operands : List Operand) : List String :=
  (operands.filterMap fun | .register set _ => some set | _ => none).eraseDups.mergeSort (· ≤ ·)

/-- What is wrong with operands that are right one by one: registers that have to be of one set
are not. -/
def setCauses (i : Instruction) (spec : Spec) (operands : List Operand) : List Cause :=
  if spec.sameSet && 1 < (setsOf operands).length then [.mixedSets i.mnemonic (setsOf operands)]
  else []

/-- What is wrong with the extension of an instruction. -/
def extensionCauses (mask : Mask) (i : Instruction) (spec : Spec) : List Cause :=
  if mask.has spec.extension then [] else [.missingExtension i.mnemonic spec.extension]

/-- The state of the second pass: the scope, the next offset, and the sound instructions in
reverse order. -/
structure Progress where
  scope : Scope
  offset : Nat := 0
  code : List Placed := []
  deriving DecidableEq, Repr

namespace Progress

/-- Checks an instruction of which the template is known and which has the right number of
operands. -/
def addSpec (mask : Mask) (p : Progress) (i : Instruction) (spec : Spec) : Progress × List Cause :=
  let (scope, results) := p.scope.checkOperands i (i.operands.zip spec.slots)
  let before := extensionCauses mask i spec ++ results.filterMap causeOf?
  let operands := results.filterMap operandOf?
  let causes := if before.isEmpty then setCauses i spec operands else before
  ({ p with
      scope
      code := if causes.isEmpty then ⟨p.offset, spec, operands, i.pos⟩ :: p.code else p.code },
    causes)

/-- Checks an instruction. -/
def check (mask : Mask) (p : Progress) (i : Instruction) : Progress × List Cause :=
  match Spec.named? i.mnemonic with
  | none => (p, [.unknownInstruction i.mnemonic])
  | some spec =>
    if i.operands.length ≠ spec.slots.length then
      (p, extensionCauses mask i spec ++
        [.operandCount i.mnemonic spec.slots.length i.operands.length])
    else addSpec mask p i spec

/-- Checks an instruction and goes on to the next offset. -/
def add (mask : Mask) (p : Progress) (i : Instruction) : Progress × List Finding :=
  let (p, causes) := check mask p i
  ({ p with offset := p.offset + wordSize }, causes.map fun c => ⟨c, some i.pos⟩)

end Progress

end AluVM.Analysis
