import AluVM.Link.Job
import AluVM.Report.Log

/-! # Linking

An object is linked by filling its fields, first those of labels, then those of calls, then those
of data. A call needs its library: the one that the object fixes by its id, else the one that the
environment has under the local name, else the object of that name, which is linked on the spot,
else the library whose id is the local name itself. An object is linked at most once by one
linker, and objects that need each other are refused. -/

namespace AluVM

/-- What happens while linking. -/
inductive LinkEvent where
  /-- A job moved. -/
  | advanced (object : String) (old new : JobState)
  /-- A call was resolved to a routine of a library with a given index. -/
  | resolved (object target : String) (index : Nat) (library : String) (routine : Int)
  /-- An object became a library. -/
  | linked (object library : String) (codeSize libraries : Nat)
  /-- Objects became one. -/
  | merged (count : Nat) (object : String)
  deriving DecidableEq, Repr

/-- The record of an event. -/
def LinkEvent.line : LinkEvent → LogLine
  | advanced object old new =>
    ⟨.debug, "aluasm.linker", object ++ ": " ++ old.name ++ " -> " ++ new.name⟩
  | resolved object target index library routine =>
    ⟨.debug, "aluasm.linker", object ++ ": " ++ target ++ " -> [" ++ toString index ++ "] " ++
      library ++ "+" ++ Numeral.decimal routine⟩
  | linked object library codeSize libraries =>
    ⟨.info, "aluasm.linker", object ++ " enlazado: " ++ library ++ " (" ++ toString codeSize ++
      " bytes de código, " ++ toString libraries ++ " librería(s))"⟩
  | merged count object =>
    ⟨.info, "aluasm.linker", "fusionados " ++ toString count ++ " módulos en " ++ object⟩

/-- The state of a linker: the objects linked so far, those under way (outermost first), and what
happened (newest first). -/
structure Linker where
  env : Environment
  strategy : ContentId.Strategy := .sha256
  linked : Dict Library := []
  stack : List String := []
  events : List LinkEvent := []

/-- Linking: what is linked stays linked also if a later step fails. -/
abbrev LinkM := ExceptT Failure (StateM Linker)

namespace Linker

/-- Records what happened. -/
def record (event : LinkEvent) : LinkM Unit :=
  modify fun l => { l with events := event :: l.events }

/-- Fails or goes on as a computation of another part does. -/
def lift {α : Type} (result : Except Failure α) : LinkM α :=
  match result with
  | .ok a => pure a
  | .error e => throw e

/-- Runs a step of a job; if it fails for a reason of the tools' user, the job has failed. -/
def step {α : Type} (object : String) (state : JobState) (x : LinkM α) : LinkM α :=
  tryCatch x fun e => do
    if e.diagnostic?.isSome then record (.advanced object state .failed)
    throw e

/-- Records that a job moved. -/
def advance (object : String) (old new : JobState) : LinkM Unit := record (.advanced object old new)

/-- Checks that the environment supports extensions. -/
def checkMask (mask : Mask) (who : String) : LinkM Unit := do
  match (mask.diff (← get).env.mask).names with
  | .error e => throw (.extension e)
  | .ok missing => if !missing.isEmpty then throw (.link (.unsupported missing (some who)))

/-- The local name of the library and the name of the routine in the target of a call, if a dot
divides them. -/
def splitTarget? (target : String) : Option (String × String) :=
  match target.toList.span (· ≠ '.') with
  | (name, _ :: routine) => some (String.ofList name, String.ofList routine)
  | (_, []) => none

/-- The library that the environment has for a local name or the id fixed for it, objects aside. -/
def known? (env : Environment) (pinned : Option String) (name : String) : Option Library :=
  (pinned.bind env.library?).orElse fun _ => (env.aliases.get? name).bind env.library?

/-- The library of a local name, found in the order given above. -/
def findLibrary (inline : String → LinkM Library) (pinned : Option String) (name : String) :
    LinkM (Option Library) := do
  let env := (← get).env
  match known? env pinned name with
  | some l => return some l
  | none => if env.objects.has name then return some (← inline name) else return env.library? name

/-- Checks that a library is the one that an object fixes. -/
def checkPin (pinned : Option String) (name target : String) (l : Library) : Except Failure Unit :=
  match pinned with
  | none => .ok ()
  | some id =>
    match ContentId.normalize id with
    | .error e => .error (.id e)
    | .ok normal =>
      if normal = l.id then .ok ()
      else .error (.link (.undefinedExternal target (.pinnedElsewhere name id l.id)))

/-- The library that a call of an object needs. -/
def resolveLibrary (inline : String → LinkM Library) (o : Object) (name target : String) :
    LinkM Library := do
  let pinned := o.libraryId? name
  match ← findLibrary inline pinned name with
  | none => throw (.link (.undefinedExternal target (.unknownLibrary name pinned)))
  | some l =>
    lift (checkPin pinned name target l)
    checkMask l.mask (if l.name.isEmpty then l.id else l.name)
    return l

/-- Fills the field of a call. -/
def resolveCall (inline : String → LinkM Library) (j : Job) (r : Relocation) : LinkM Job := do
  match splitTarget? r.target with
  | none => throw (.internal (.callWithoutLibrary j.object.name r.target))
  | some (name, routine) =>
    let l ← resolveLibrary inline j.object name r.target
    match exportOffset? l.exports routine with
    | none => throw (.link (.undefinedExternal r.target (.notExported l.id routine)))
    | some offset =>
      let (index, j) ← lift (j.resolveCall r l.id offset)
      record (.resolved j.object.name r.target index l.id offset)
      return j

/-- Fills the fields of all calls. -/
def resolveCalls (inline : String → LinkM Library) (j : Job) : LinkM Job :=
  (j.object.relocationsOf .externalCall).foldlM (resolveCall inline) j

/-- Links an object, given how objects of the environment are linked. -/
def linkWith (inline : String → LinkM Library) (o : Object) : LinkM Library := do
  let j ← step o.name .unlinked do
    checkMask o.mask o.name
    lift (Job.start o).resolveLabels
  advance o.name .unlinked .partiallyResolved
  let j ← step o.name .partiallyResolved do
    let j ← resolveCalls inline j
    lift j.resolveData
  advance o.name .partiallyResolved .resolved
  let l ← step o.name .resolved do lift (j.library (← get).strategy)
  advance o.name .resolved .addressed
  record (.linked o.name l.id l.code.length l.libraries.length)
  return l

/-- The chain from an object that is under way to itself. -/
def cycle (stack : List String) (name : String) : List String :=
  stack.dropWhile (· ≠ name) ++ [name]

/-- Links an object of the environment, or finds it linked, given how an object is linked. -/
def linkOnce (fresh : Object → LinkM Library) (name : String) : LinkM Library := do
  let l ← get
  match l.linked.get? name with
  | some library => return library
  | none =>
    if name ∈ l.stack then throw (.link (.cyclic (cycle l.stack name)))
    match l.env.objects.get? name with
    | none => throw (.link (.undefinedExternal name (.unknownLibrary name none)))
    | some o =>
      modify fun l => { l with stack := l.stack ++ [name] }
      let library ← tryFinally (fresh o) (modify fun l => { l with stack := l.stack.dropLast })
      modify fun l => { l with linked := l.linked.put name library }
      return library

/-- Links an object of the environment, or finds it linked. Every level puts another name on the
stack, so the number of objects is enough fuel: without fuel every object is under way. Levels are
not limited otherwise: that a chain of objects may be too long for the stack of a machine is not a
matter here. -/
def linkInline : (fuel : Nat) → String → LinkM Library
  | 0 => linkOnce fun o => throw (.link (.undefinedExternal o.name (.unknownLibrary o.name none)))
  | fuel + 1 => linkOnce (linkWith (linkInline fuel))

/-- **Links an object.** -/
def link (o : Object) : LinkM Library := do
  linkWith (linkInline (← get).env.objects.length) o

end Linker

/-- Links an object with a linker of its own. -/
def linkObject (o : Object) (env : Environment) (s : ContentId.Strategy := .sha256) :
    Except Failure Library :=
  ((Linker.link o).run { env, strategy := s }).1

end AluVM
