import AluVM.Numeral

/-! # Extensions of the instruction set

Every instruction belongs to an extension, and code declares the extensions that it needs as a
mask with one bit each. Masks are integers in two's complement, so that also a mask with bits of
no known extension is a value; its names are refused. -/

namespace AluVM

/-- A part of the instruction set. -/
inductive Extension where
  | alu
  | bpdigest
  | secp256k1
  | ed25519
  deriving DecidableEq, Repr

namespace Extension

/-- The extensions in the order of their bits. -/
def all : List Extension := [alu, bpdigest, secp256k1, ed25519]

/-- The name of an extension. -/
def name : Extension → String
  | alu => "ALU"
  | bpdigest => "BPDIGEST"
  | secp256k1 => "SECP256K1"
  | ed25519 => "ED25519"

/-- The bit of an extension in a mask. -/
def bit : Extension → Nat
  | alu => 1
  | bpdigest => 2
  | secp256k1 => 4
  | ed25519 => 8

/-- The extension of a given name; letter case and blanks around it do not matter. -/
def named? (text : String) : Option Extension :=
  let key := Text.upper (Text.strip text)
  all.find? (·.name = key)

end Extension

/-- A set of extensions: the sum of their bits. -/
abbrev Mask := Int

namespace Mask

/-- The bits of `m` that are not in `n`. -/
def natDiff (m n : Nat) : Nat := m ^^^ (m &&& n)

/-- The bits of either mask. -/
def union : Mask → Mask → Mask
  | .ofNat m, .ofNat n => .ofNat (m ||| n)
  | .ofNat m, .negSucc n => .negSucc (natDiff n m)
  | .negSucc m, .ofNat n => .negSucc (natDiff m n)
  | .negSucc m, .negSucc n => .negSucc (m &&& n)

/-- The bits of the first mask that are not in the second. -/
def diff : Mask → Mask → Mask
  | .ofNat m, .ofNat n => .ofNat (natDiff m n)
  | .ofNat m, .negSucc n => .ofNat (m &&& n)
  | .negSucc m, .ofNat n => .negSucc (m ||| n)
  | .negSucc m, .negSucc n => .ofNat (natDiff n m)

/-- Whether the mask has the bit of an extension. -/
def has (m : Mask) (e : Extension) : Bool := m / (e.bit : Int) % 2 = 1

/-- The mask of the base instruction set, which is always present. -/
def base : Mask := Extension.alu.bit

/-- The mask of all extensions. -/
def full : Mask := ((Extension.all.map Extension.bit).foldr (· + ·) 0 : Nat)

/-- The extensions of a mask in the order of their bits, if it has no other bits. -/
def extensions? (m : Mask) : Option (List Extension) :=
  if 0 ≤ m && m ≤ full then some (Extension.all.filter m.has) else none

end Mask

/-- Why an extension or a mask was refused. -/
inductive ExtensionError where
  /-- No extension has this name. -/
  | unknownName (name : String)
  /-- The mask has bits of no extension. -/
  | unknownBits (mask : Mask)
  deriving DecidableEq, Repr

/-- The wording of a refusal. -/
def ExtensionError.message : ExtensionError → String
  | .unknownName name => "Extensión ISA desconocida: " ++ name
  | .unknownBits mask => "Máscara ISAE con bits desconocidos: " ++ Numeral.hex mask

namespace Mask

/-- Adds a named extension to a mask. -/
def addName (m : Mask) (name : String) : Except ExtensionError Mask :=
  match Extension.named? name with
  | some e => .ok (m.union e.bit)
  | none => .error (.unknownName name)

/-- The mask of the named extensions and the base. -/
def ofNames (names : List String) : Except ExtensionError Mask := names.foldlM addName base

/-- The names of the extensions of a mask. -/
def names (m : Mask) : Except ExtensionError (List String) :=
  match m.extensions? with
  | some es => .ok (es.map Extension.name)
  | none => .error (.unknownBits m)

/-- The names of the extensions of a mask as one line. -/
def manifest (m : Mask) : Except ExtensionError String := (" ".intercalate ·) <$> m.names

end Mask

end AluVM
