import AluVM.Listing.Disassembly

/-! # Dumps

Readable dumps of objects and libraries: what they declare, then their code. -/

namespace AluVM

/-- Text filled with blanks up to a width. -/
def padRight (width : Nat) (s : String) : String :=
  s ++ String.ofList (List.replicate (width - s.length) ' ')

/-- Code in hexadecimal, one word a line. -/
def hexLines (code : Bytes) : List String := (Disassembly.words code).map Bytes.toHex

namespace Object

/-- The dump of an object. -/
def dump (o : Object) : Except Failure (List String) := do
  let manifest ← Disassembly.manifest o.mask
  let head := ["módulo:   " ++ o.name, "isae:     " ++ manifest,
    "entrada:  " ++ (match o.entry with | some e => offsetText e | none => "-"),
    "código:   " ++ toString o.code.length ++ " bytes",
    "datos:    " ++ toString o.data.length ++ " bytes", "", "símbolos:"]
  let symbols := (o.exports ++ o.symbols).map fun s =>
    "  " ++ offsetText s.value ++ "  " ++ padRight 10 s.kind.label ++ " " ++ s.name
  let imports := o.imports.map fun i => "  " ++ i.name
  let libraries := o.libraries.map fun l =>
    "  " ++ l.name ++ " = " ++ (match l.id.filter (!·.isEmpty) with | some id => id | none => "?")
  let relocations := o.relocations.map fun r =>
    "  " ++ offsetText r.offset ++ "  " ++ padRight 14 r.kind.tag ++ " " ++ r.target
  let data := if o.data.isEmpty then [] else ["", "datos:", "  " ++ Bytes.toHex o.data]
  return head ++ symbols ++ ["importaciones:"] ++ imports ++ ["librerías:"] ++ libraries ++
    ["reubicaciones:"] ++ relocations ++ [""] ++ (← o.disassemble) ++ data

end Object

namespace Library

/-- The dump of a library. -/
def dump (l : Library) : Except Failure (List String) := do
  let names := ", ".intercalate (l.exports.map (·.name))
  let head := ["id:       " ++ l.id, "exporta:  " ++ (if names.isEmpty then "-" else names)]
  let calls := l.calls.map fun c =>
    "llamada:  " ++ offsetText c.offset ++ " -> " ++ c.library ++ "+" ++ offsetText c.routine
  return head ++ calls ++ [""] ++ (← l.disassemble)

end Library

end AluVM
