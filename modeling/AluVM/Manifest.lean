import AluVM.Command.Console
import AluVM.Json
import AluVM.Library
import AluVM.Link.Environment
import AluVM.Object.Format

/-! # Manifests

A manifest says what objects are linked against: the algorithm of ids, the supported extensions,
ids by local name, files of libraries, and files of objects by local name. It is a JSON object;
relative paths in it start at the directory that it is in. -/

namespace AluVM

/-- What objects are linked against. -/
structure Manifest where
  digest : String := "sha256"
  /-- The supported extensions; all of them if they are not given. -/
  extensions : Option (List String) := none
  aliases : Dict String := []
  libraries : List String := []
  objects : Dict String := []
  base : Path := Path.ofText ""
  deriving DecidableEq, Repr

namespace Manifest

/-- The algorithm of ids. -/
def strategy (c : Manifest) : Except ManifestError ContentId.Strategy :=
  (ContentId.Strategy.named c.digest).mapError .badDigest

/-- The supported extensions. -/
def mask (c : Manifest) : Except ManifestError Mask :=
  match c.extensions with
  | none => .ok Mask.full
  | some names => (Mask.ofNames names).mapError .badMask

/-- The path that a path of the manifest denotes. -/
def resolve (c : Manifest) (path : String) : Path := c.base.join (Path.ofText path)

/-! ### From JSON -/

/-- The keys of a manifest. -/
def keys : List String := ["digest", "isae", "aliases", "libraries", "modules"]

/-- The string that a value is. -/
def string? : Json → Option String
  | .string s => some s
  | _ => none

/-- The values of an array, or of a key that is not there. -/
def arrayAt (key : String) : Option Json → Except ManifestError (List Json)
  | none => .ok []
  | some (.array values) => .ok values
  | some _ => .error (.wrongType key "list")

/-- The fields of an object, or of a key that is not there. -/
def objectAt (key : String) : Option Json → Except ManifestError (Dict Json)
  | none => .ok []
  | some (.object fields) => .ok fields
  | some _ => .error (.wrongType key "dict")

/-- The value of a key with strings in it, all of which have to be strings. -/
def strings {α : Type} (key : String) (read : Option α) : Except ManifestError α :=
  match read with
  | some a => .ok a
  | none => .error (.notStrings key)

/-- The strings of fields. -/
def fieldStrings? (fields : Dict Json) : Option (Dict String) :=
  fields.mapM fun (key, value) => do return (key, ← string? value)

/-- The names of extensions, if they are given. -/
def extensionsAt : Option Json → Except ManifestError (Option (List String))
  | none => .ok none
  | some .null => .ok none
  | some (.array values) =>
    match values.mapM string? with
    | some names => .ok (some names)
    | none => .error .badExtensions
  | some _ => .error .badExtensions

/-- The name of the algorithm. -/
def digestAt : Option Json → Except ManifestError String
  | none => .ok "sha256"
  | some (.string s) => .ok s
  | some _ => .error (.wrongType "digest" "str")

/-- The manifest with the given fields. Types are checked before the strings, and those before
the names of the algorithm and of the extensions. -/
def ofFields (fields : Dict Json) (base : Path) : Except ManifestError Manifest := do
  let unknown := (fields.map (·.1)).filter fun k => !keys.contains k
  if !unknown.isEmpty then throw (.unknownKeys (unknown.mergeSort fun a b => a ≤ b))
  let extensions ← extensionsAt (fields.get? "isae")
  let aliases ← objectAt "aliases" (fields.get? "aliases")
  let libraries ← arrayAt "libraries" (fields.get? "libraries")
  let objects ← objectAt "modules" (fields.get? "modules")
  let aliases ← strings "aliases" (fieldStrings? aliases)
  let libraries ← strings "libraries" (libraries.mapM string?)
  let objects ← strings "modules" (fieldStrings? objects)
  let digest ← digestAt (fields.get? "digest")
  let c : Manifest := { digest, extensions, aliases, libraries, objects, base }
  let _ ← c.strategy
  let _ ← c.mask
  return c

/-- **The manifest that a JSON value denotes.** -/
def ofJson (value : Json) (base : Path := Path.ofText "") : Except ManifestError Manifest :=
  match value with
  | .object fields => ofFields fields base
  | _ => .error .notAnObject

/-! ### From files -/

/-- A line of the log. -/
def logLine (message : String) : LogLine := ⟨.debug, "aluasm.config", message⟩

variable {m : Type → Type} [Monad m] [Files m]

/-- The value that the text of a manifest denotes. -/
def readJson (path : String) (text : List Char) : Except Failure Json :=
  (Json.parse text).mapError fun
    | .fault f line => .manifest (.notJson path f.message line)
    | .overlong => .number .overlong
    | .tooDeep => .tooDeep

/-- **Reads a manifest.** -/
def load (path : String) : Tool m Manifest := do
  let p := Path.ofText path
  let value ← Tool.lift (readJson p.render (← Tool.readText p.render))
  Tool.log (logLine ("manifiesto " ++ p.render))
  Tool.lift ((ofJson value p.parent).mapError .manifest)

/-- Adds the library of a file. -/
def addLibrary (c : Manifest) (e : Environment) (path : String) : Tool m Environment := do
  let content ← Tool.read (c.resolve path).render
  let l ← Tool.lift (Library.ofBytes content)
  Tool.log (logLine ("librería " ++ l.id ++ " <- " ++ path))
  return e.addLibrary l

/-- Adds the object of a file. -/
def addObject (c : Manifest) (e : Environment) (name path : String) : Tool m Environment := do
  Tool.log (logLine ("módulo en línea " ++ name ++ " <- " ++ path))
  let content ← Tool.read (c.resolve path).render
  return e.addObject name (← Tool.lift ((Object.ofBytes content).mapError .format))

/-- **The environment that a manifest describes.** -/
def environment (c : Manifest) : Tool m Environment := do
  let aliases ← Tool.lift ((Environment.normalAliases c.aliases).mapError (.manifest ∘ .badAlias))
  let mask ← Tool.lift (c.mask.mapError .manifest)
  let e ← c.libraries.foldlM (addLibrary c) ({ aliases, mask } : Environment)
  c.objects.foldlM (fun e (name, path) => addObject c e name path) e

end Manifest

end AluVM
