import AluVM.Link.Environment

/-! # Link jobs

The linking of one object: its code while fields are filled in, the table of the libraries that
it calls, and the calls. A job goes through its states in order, and a finished or failed job
never moves again. -/

namespace AluVM

/-- How far a job is. -/
inductive JobState where
  | unlinked
  | partiallyResolved
  | resolved
  | addressed
  | failed
  deriving DecidableEq, Repr

namespace JobState

/-- All states. -/
def all : List JobState := [unlinked, partiallyResolved, resolved, addressed, failed]

/-- The name of a state. -/
def name : JobState → String
  | unlinked => "unlinked"
  | partiallyResolved => "partially-resolved"
  | resolved => "resolved"
  | addressed => "addressed"
  | failed => "failed"

/-- The state of a given name. -/
def named? (name : String) : Option JobState := all.find? (·.name = name)

/-- The place of a state in the order of work; failure may come at any time. -/
def rank : JobState → Nat
  | unlinked => 0
  | partiallyResolved => 1
  | resolved => 2
  | addressed => 3
  | failed => 4

/-- Whether a job in this state is over. -/
def isFinal (s : JobState) : Bool := s = addressed || s = failed

end JobState

/-- Why a job does not move. -/
inductive JobError where
  | finished (object : String) (state : JobState)
  | backwards (object : String) (old new : JobState)
  deriving DecidableEq, Repr

/-- The wording of a refusal. -/
def JobError.message : JobError → String
  | finished object state => object ++ ": el trabajo ya terminó (" ++ state.name ++ ")"
  | backwards object old new => object ++ ": transición inválida " ++ old.name ++ " -> " ++ new.name

/-- The linking of one object. -/
structure Job where
  object : Object
  state : JobState := .unlinked
  code : Array UInt8
  libraries : List String := []
  calls : List CallSite := []
  deriving DecidableEq, Repr

namespace Job

/-- The greatest number of libraries that one object calls: the index in a call is one byte. -/
def maxLibraries : Nat := 256

/-- The job of linking an object, at its start. -/
def start (o : Object) : Job := { object := o, code := o.code.toArray }

/-- Moves a job forward. -/
def advance (j : Job) (new : JobState) : Except JobError Job :=
  if j.state.isFinal then .error (.finished j.object.name j.state)
  else if new.rank ≤ j.state.rank then .error (.backwards j.object.name j.state new)
  else .ok { j with state := new }

/-- The place of a library in the table, to which it is added at its first use. -/
def libraryIndex (j : Job) (id : String) : Except LinkError (Nat × Job) :=
  match j.libraries.idxOf? id with
  | some index => .ok (index, j)
  | none =>
    if maxLibraries ≤ j.libraries.length then .error (.tooManyLibraries j.object.name maxLibraries)
    else .ok (j.libraries.length, { j with libraries := j.libraries ++ [id] })

/-- Writes bytes into code from an offset on. -/
def overwrite (code : Array UInt8) (offset : Nat) : Bytes → Array UInt8
  | [] => code
  | b :: bs => overwrite (code.setIfInBounds offset b) (offset + 1) bs

/-- Fills a field of the code. The first byte of the code is an opcode and never part of a field. -/
def patch (j : Job) (offset : Int) (target : String) (bytes : Bytes) : Except Failure Job :=
  if offset < 1 || (j.code.size : Int) < offset + bytes.length then
    .error (.internal (.fieldOutside j.object.name target offset))
  else .ok { j with code := overwrite j.code offset.toNat bytes }

/-- The field of an offset. -/
def offsetField (object target : String) (value : Int) : Except Failure Bytes :=
  if 0 ≤ value && value ≤ maxOffset then .ok (Bytes.ofNat 2 value.toNat)
  else .error (.internal (.offsetRange object target value))

end Job

/-- The relocations of a kind in the order of their offsets. -/
def Object.relocationsOf (o : Object) (kind : RelocationKind) : List Relocation :=
  (o.relocations.filter (·.kind = kind)).mergeSort fun r s => r.offset ≤ s.offset

/-- The value of a symbol of one of the kinds, if there is one of the name. -/
def Object.symbolValue (o : Object) (kinds : List SymbolKind) (missing : EncodeCause)
    (target : String) : Except Failure Int :=
  match o.lookup? target kinds with
  | none => .error (.internal missing)
  | some symbol => .ok symbol.value

/-- The value of a label. -/
def Object.labelValue (o : Object) (target : String) : Except Failure Int :=
  o.symbolValue [.localLabel, .exportedLabel] (.unresolvedLabel o.name target) target

/-- The value of a datum, which lies in the data or at their end. -/
def Object.datumValue (o : Object) (target : String) : Except Failure Int := do
  let value ← o.symbolValue [.dataSymbol] (.unresolvedDatum o.name target) target
  if (o.data.length : Int) < value then .error (.internal (.datumOutside o.name target))
  else .ok value

namespace Job

/-- Fills a field with the value that its target has in the object. -/
def resolve (value : Object → String → Except Failure Int) (j : Job) (r : Relocation) :
    Except Failure Job := do
  let v ← value j.object r.target
  j.patch r.offset r.target (← offsetField j.object.name r.target v)

/-- Fills the fields of a kind. -/
def resolveAll (kind : RelocationKind) (value : Object → String → Except Failure Int) (j : Job) :
    Except Failure Job :=
  (j.object.relocationsOf kind).foldlM (resolve value) j

/-- Fills the fields of all labels. -/
def resolveLabels (j : Job) : Except Failure Job := j.resolveAll .localOffset Object.labelValue

/-- Fills the fields of all data. -/
def resolveData (j : Job) : Except Failure Job := j.resolveAll .dataAddress Object.datumValue

/-- Fills the field of a call of a routine at a given offset of a library, and lists the call. -/
def resolveCall (j : Job) (r : Relocation) (library : String) (routine : Int) :
    Except Failure (Nat × Job) := do
  let (index, j) ← (j.libraryIndex library).mapError .link
  let field ← offsetField j.object.name r.target routine
  let j ← j.patch r.offset r.target (UInt8.ofNat index :: field)
  return (index, { j with calls := j.calls ++ [⟨r.offset, library, routine⟩] })

/-- The library of a job that has filled all fields. -/
def library (j : Job) (s : ContentId.Strategy) : Except Failure Library :=
  Library.build s {
    id := ""
    mask := j.object.mask
    code := j.code.toList
    data := j.object.data
    libraries := j.libraries
    exports := j.object.exports
    calls := j.calls
    entry := j.object.entry
    name := j.object.name }

/-! ### A job that is changed in place

The linker asks for things in its own order. A job as an object of its own takes calls in any order
and with any arguments. -/

/-- A call on a job. -/
inductive Call where
  | advance (new : JobState)
  | patch (offset : Int) (target : String) (bytes : Bytes)
  | libraryIndex (id : String)
  deriving DecidableEq, Repr

/-- Why a call fails. -/
inductive CallError where
  | order (e : JobError)
  | failure (e : Failure)
  deriving DecidableEq, Repr

/-- Work on a job: what a step has changed stays changed also if a later step fails. -/
abbrev Work := ExceptT CallError (StateM Job)

/-- Puts bytes in the place of those from one offset up to another, however many these are. -/
def splice (code : Array UInt8) (first last : Nat) (bytes : Bytes) : Array UInt8 :=
  code.take first ++ bytes ++ code.drop last

namespace Work

/-- Moves the job forward. -/
def advance (new : JobState) : Work Unit := do
  let j ← get
  if j.state.isFinal then throw (.order (.finished j.object.name j.state))
  if new.rank ≤ j.state.rank then throw (.order (.backwards j.object.name j.state new))
  set { j with state := new }

/-- Puts bytes into the code from an offset on. -/
def patch (offset : Int) (target : String) (bytes : Bytes) : Work Unit := do
  let j ← get
  let last := offset + bytes.length
  if offset < 1 || (j.code.size : Int) < last then
    throw (.failure (.internal (.fieldOutside j.object.name target offset)))
  set { j with code := splice j.code offset.toNat last.toNat bytes }

/-- The place of a library in the table, to which it is added at its first use. -/
def libraryIndex (id : String) : Work Nat := do
  let j ← get
  if id ∉ j.libraries then
    if maxLibraries ≤ j.libraries.length then
      throw (.failure (.link (.tooManyLibraries j.object.name maxLibraries)))
    set { j with libraries := j.libraries ++ [id] }
  return (← get).libraries.idxOf id

end Work

/-- The work of a call, which returns a place if the call asks for one. -/
def Call.work : Call → Work (Option Nat)
  | .advance new => do
    Work.advance new
    return none
  | .patch offset target bytes => do
    Work.patch offset target bytes
    return none
  | .libraryIndex id => do return some (← Work.libraryIndex id)

/-- **Makes a call**: what it returns or why it fails, and the job after it. -/
def call (j : Job) (c : Call) : Except CallError (Option Nat) × Job := c.work.run j

end Job

end AluVM
