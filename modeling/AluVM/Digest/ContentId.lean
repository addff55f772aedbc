import AluVM.Bytes
import AluVM.Digest.Blake2b
import AluVM.Text.Blank

/-! # Content ids

A library is named by its content: the id `algorithm:digest` holds the digest of the content in
hexadecimal and the name of the algorithm that made it, so that whoever reads an id knows how to
check it. Every digest has `digestSize` bytes. Ids are compared in their normal form, with the
digits in lower case. -/

namespace AluVM

/-- Why an id was refused. -/
inductive IdError where
  /-- No digest algorithm has this name. -/
  | unknownAlgorithm (name : String)
  /-- The text is no content id. -/
  | malformed (text : String)
  /-- A digest of this many bytes was to be written as an id. -/
  | digestSize (size : Nat)
  deriving DecidableEq, Repr

namespace ContentId

/-- The bytes of a digest. -/
def digestSize : Nat := 32

/-- A named digest algorithm. -/
structure Strategy where
  name : String
  digest : Bytes → Bytes

namespace Strategy

/-- The SHA-256 digest. -/
def sha256 : Strategy := ⟨"sha256", Digest.Sha2.sha256⟩

/-- The BLAKE2b digest of 32 bytes. -/
def blake2b256 : Strategy := ⟨"blake2b256", Digest.Blake2b.digest digestSize⟩

/-- The algorithms that ids may name. -/
def known : List Strategy := [sha256, blake2b256]

/-- The known algorithm of a given name. -/
def named? (name : String) : Option Strategy := known.find? (·.name = name)

/-- The known algorithm of a given name, or the refusal. -/
def named (name : String) : Except IdError Strategy :=
  match named? name with
  | some s => .ok s
  | none => .error (.unknownAlgorithm name)

/-- The id with a given digest. -/
def render (s : Strategy) (digest : Bytes) : Except IdError String :=
  if digest.length = digestSize then .ok (s.name ++ ":" ++ Bytes.toHex digest)
  else .error (.digestSize digest.length)

/-- The id of a content. -/
def contentId (s : Strategy) (content : Bytes) : Except IdError String :=
  s.render (s.digest content)

end Strategy

/-- The name of an algorithm: a lower-case letter, then lower-case letters and digits. -/
def isAlgorithmName : List Char → Bool
  | [] => false
  | c :: cs => c.isLower && cs.all fun d => d.isLower || d.isDigit

/-- The algorithm and the digest of a text that is a content id, blanks around it aside. -/
def split? (text : String) : Option (String × Bytes) :=
  let cs := Text.stripChars text.toList
  let algorithm := cs.takeWhile (· ≠ ':')
  let digits := (cs.dropWhile (· ≠ ':')).drop 1
  if isAlgorithmName algorithm && digits.length = 2 * digestSize &&
      digits.all (Bytes.hexValue? · |>.isSome) then
    (Bytes.ofHex? digits).map fun digest => (String.ofList algorithm, digest)
  else none

/-- Whether a text is a content id of a known algorithm. -/
def isId (text : String) : Bool :=
  match split? text with
  | some (algorithm, _) => (Strategy.named? algorithm).isSome
  | none => false

/-- The algorithm that made an id. -/
def strategyOf (text : String) : Except IdError Strategy :=
  match split? text with
  | some (algorithm, _) => Strategy.named algorithm
  | none => .error (.malformed text)

/-- The normal form of an id. -/
def normalize (text : String) : Except IdError String :=
  match split? text with
  | some (algorithm, digest) => .ok (algorithm ++ ":" ++ Bytes.toHex digest)
  | none => .error (.malformed text)

end ContentId

/-- The wording of a refusal. -/
def IdError.message : IdError → String
  | .unknownAlgorithm name =>
    "Algoritmo de digest desconocido: " ++ name ++ " (disponibles: " ++
      ", ".intercalate (ContentId.Strategy.known.map (·.name)) ++ ")"
  | .malformed text => "Id de librería mal formado: " ++ text
  | .digestSize size =>
    "digest de " ++ toString size ++ " bytes (se esperaban " ++ toString ContentId.digestSize ++ ")"

end AluVM
