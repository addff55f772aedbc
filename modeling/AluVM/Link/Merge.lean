import AluVM.Link.Linker

/-! # Merging objects

Several objects become one: their code and their data are put one behind the other, and all
offsets are moved. Symbols that an object does not export get the number of the object as a
suffix, so that they never meet; exports and the entry have to be unique. -/

namespace AluVM

namespace Merge

/-- The objects merged so far. Lists are in reverse order. -/
structure State where
  count : Nat := 0
  code : Bytes := []
  data : Bytes := []
  mask : Mask := 0
  /-- The entry and the object that it is from. -/
  entry : Option (Int × String) := none
  exports : List ObjectSymbol := []
  /-- The objects of the exported names. -/
  owners : List (String × String) := []
  symbols : List ObjectSymbol := []
  imports : List Import := []
  libraries : Dict (Option String) := []
  relocations : List Relocation := []

/-- A symbol moved with its object. -/
def rebase (codeBase dataBase : Nat) (s : ObjectSymbol) : ObjectSymbol :=
  { s with value := s.value + (if s.kind = .dataSymbol then dataBase else codeBase : Nat) }

/-- The name of a symbol that its object does not export. -/
def localName (count : Nat) (name : String) : String := name ++ "@" ++ toString count

/-- A symbol that its object does not export, moved with its object. -/
def hide (count codeBase dataBase : Nat) (s : ObjectSymbol) : ObjectSymbol :=
  { rebase codeBase dataBase s with name := localName count s.name }

/-- Adds an export. -/
def addExport (object : String) (codeBase dataBase : Nat) (st : State) (s : ObjectSymbol) :
    Except LinkError State :=
  match st.owners.lookup s.name with
  | some owner => .error (.duplicateExport s.name [owner, object])
  | none =>
    .ok { st with
      exports := rebase codeBase dataBase s :: st.exports
      owners := (s.name, object) :: st.owners }

/-- Adds an entry. -/
def addEntry (o : Object) (codeBase : Nat) (st : State) : Except LinkError State :=
  match o.entry, st.entry with
  | none, _ => .ok st
  | some _, some (_, owner) => .error (.duplicateExport ".MAIN" [owner, o.name])
  | some e, none => .ok { st with entry := some (e + codeBase, o.name) }

/-- The target of a relocation after the symbols of its object got their suffix. -/
def retarget (o : Object) (count : Nat) (r : Relocation) : String :=
  if r.kind ≠ .externalCall && o.symbols.any (·.name = r.target) then localName count r.target
  else r.target

/-- A relocation moved with its object. -/
def move (o : Object) (count codeBase : Nat) (r : Relocation) : Relocation :=
  ⟨r.offset + codeBase, r.kind, retarget o count r⟩

/-- Adds an import unless it is there. -/
def addImport (imports : List Import) (i : Import) : List Import :=
  if imports.any (·.name = i.name) then imports else i :: imports

/-- Adds a library; an id that is fixed twice has to be the same. -/
def addLibrary (libraries : Dict (Option String)) (ref : LibraryRef) :
    Except Failure (Dict (Option String)) := do
  match (libraries.get? ref.name).join, ref.id with
  | some first, some second =>
    let normalFirst ← (ContentId.normalize first).mapError .id
    let normalSecond ← (ContentId.normalize second).mapError .id
    if normalFirst ≠ normalSecond then throw (.link (.pinConflict ref.name first second))
    return libraries.put ref.name (some first)
  | some first, none => return libraries.put ref.name (some first)
  | none, id => return libraries.put ref.name id

/-- Adds an object. -/
def addObject (st : State) (o : Object) : Except Failure State := do
  let codeBase := st.code.length
  let dataBase := st.data.length
  let count := st.count
  let st ← (o.exports.foldlM (addExport o.name codeBase dataBase) st).mapError .link
  let st ← (addEntry o codeBase st).mapError .link
  let libraries ← o.libraries.foldlM addLibrary st.libraries
  return { st with
    count := count + 1
    code := st.code ++ o.code
    data := st.data ++ o.data
    mask := st.mask.union o.mask
    symbols := (o.symbols.map (hide count codeBase dataBase)).reverse ++ st.symbols
    imports := o.imports.foldl addImport st.imports
    libraries
    relocations := (o.relocations.map (move o count codeBase)).reverse ++ st.relocations }

/-- Checks the sizes of merged objects. -/
def checkSizes (st : State) : Except Failure Unit :=
  if maxSegment < st.code.length || maxSegment < st.data.length then
    .error (.link (.mergedTooLarge st.code.length st.data.length))
  else
    match (st.exports.reverse ++ st.symbols.reverse).find? fun s => (maxOffset : Int) < s.value with
    | some s => .error (Failure.checked (.link (.mergedOutOfReach s.name s.value)))
    | none => .ok ()

/-- The object that merged objects are. -/
def State.object (st : State) (name : String) : Object where
  name := name
  mask := st.mask
  code := st.code
  data := st.data
  exports := st.exports.reverse
  symbols := st.symbols.reverse
  imports := st.imports.reverse
  libraries := st.libraries.map fun (name, id) => ⟨name, id⟩
  relocations := st.relocations.reverse.mergeSort fun r s => r.offset ≤ s.offset
  entry := st.entry.map (·.1)

end Merge

/-- The name of merged objects: the one that is asked for, unless it is empty, else that of the
first object. -/
def mergedName (first : Object) (name : Option String) : String :=
  match name with
  | some n => if n.isEmpty then first.name else n
  | none => first.name

/-- Merges objects whether or not there are several. -/
def mergeAll (first : Object) (others : List Object) (name : Option String) :
    Except Failure Object := do
  let st ← (first :: others).foldlM Merge.addObject {}
  Merge.checkSizes st
  return st.object (mergedName first name)

/-- **Merges objects**; a single one that keeps its name stays as it is. -/
def mergeObjects (objects : List Object) (name : Option String := none) : Except Failure Object :=
  match objects, name with
  | [], _ => .error (.link .nothingToLink)
  | [o], none => .ok o
  | first :: others, name => mergeAll first others name

/-- Merges and links objects. -/
def Linker.linkMerged (objects : List Object) (name : Option String) : LinkM Library := do
  let merged ← lift (mergeObjects objects name)
  if objects.length ≠ 1 || name.isSome then record (.merged objects.length merged.name)
  link merged

/-- **Merges and links objects**; the objects of the environment that were linked come with the
library. -/
def linkObjects (objects : List Object) (env : Environment) (s : ContentId.Strategy := .sha256)
    (name : Option String := none) : Except Failure Library × Linker :=
  (Linker.linkMerged objects name).run { env, strategy := s }

end AluVM
