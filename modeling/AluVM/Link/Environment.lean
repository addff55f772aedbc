import AluVM.Dict
import AluVM.Library

/-! # Environments

What an object may be linked against: libraries by id, ids by local name, and objects that are
linked on demand, by local name. -/

namespace AluVM

/-- What an object may be linked against. -/
structure Environment where
  /-- Libraries by id. -/
  libraries : Dict Library := []
  /-- Ids by local name. -/
  aliases : Dict String := []
  /-- Objects by local name. -/
  objects : Dict Object := []
  /-- The extensions that are supported. -/
  mask : Mask := Mask.full
  deriving DecidableEq, Repr

namespace Environment

/-- Adds a library and, if it gets one, a local name for it. -/
def addLibrary (e : Environment) (l : Library) (name : Option String := none) : Environment :=
  { e with
    libraries := e.libraries.put l.id l
    aliases := match name with
      | some name => e.aliases.put name l.id
      | none => e.aliases }

/-- Adds an object. -/
def addObject (e : Environment) (name : String) (o : Object) : Environment :=
  { e with objects := e.objects.put name o }

/-- Aliases with their ids in normal form. -/
def normalAliases (aliases : Dict String) : Except IdError (Dict String) :=
  aliases.mapM fun (name, id) => do return (name, ← ContentId.normalize id)

/-- The environment with the given libraries, aliases and objects. -/
def of (libraries : List Library) (aliases : List (String × String))
    (objects : List (String × Object)) (mask : Mask := Mask.full) : Except IdError Environment := do
  let aliases ← normalAliases (Dict.ofList aliases)
  let start : Environment := { aliases, objects := Dict.ofList objects, mask }
  return libraries.foldl (fun e l => e.addLibrary l) start

/-- The library of an id. -/
def library? (e : Environment) (id : String) : Option Library :=
  if ContentId.isId id then
    match ContentId.normalize id with
    | .ok normal => e.libraries.get? normal
    | .error _ => none
  else none

end Environment

end AluVM
