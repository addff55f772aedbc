import AluVM.Bytes.Utf8
import AluVM.Digest.ContentId
import AluVM.Machine.Instruction
import AluVM.Report.Diagnostic
import AluVM.Symbol

/-! # Failures

The stages after the analysis stop at the first thing that is wrong. Every stage has its own type
of errors, one constructor a cause; `Failure` is their sum. The errors of the tools' user carry a
report, the others are defects of what was handed in. -/

namespace AluVM

open Syntax (Operand)

/-! ### Encoding -/

/-- Why something has no code. -/
inductive EncodeCause where
  /-- An instruction with too many or too few operands. -/
  | operandCount (mnemonic : String) (given slots : Nat)
  /-- An integer that its slot cannot hold. -/
  | immediateOverflow (mnemonic : String) (value : Int) (bits : Nat) (signed : Bool)
  /-- An operand that its slot does not take. -/
  | operandMismatch (mnemonic : String) (operand : Operand) (slot : Slot)
  | badBytes (name : String)
  /-- A number outside the range of its type. -/
  | valueOverflow (name type : String) (value : Int)
  /-- Data that do not take the bytes that they were given. -/
  | sizeMismatch (name : String) (encoded : Nat) (reserved : Int)
  /-- Instructions that do not take the bytes that they were given. -/
  | codeMismatch (count : Nat) (size : Int)
  /-- A relocation to a label that the object does not have. -/
  | unresolvedLabel (object target : String)
  /-- A relocation to a datum that the object does not have. -/
  | unresolvedDatum (object target : String)
  /-- A relocation to a datum behind the data. -/
  | datumOutside (object target : String)
  /-- A call that names no library. -/
  | callWithoutLibrary (object target : String)
  /-- A relocation of a field that is not in the code. -/
  | fieldOutside (object target : String) (offset : Int)
  /-- An offset that no field can hold. -/
  | offsetRange (object target : String) (value : Int)
  /-- Any other cause, and whether it is a defect of the tools. -/
  | other (message : String) (internal : Bool)
  deriving DecidableEq, Repr

namespace EncodeCause

/-- Whether the analysis should have ruled the cause out. -/
def isInternal : EncodeCause → Bool
  | immediateOverflow .. => false
  | valueOverflow .. => false
  | other _ internal => internal
  | _ => true

/-- The wording of a cause. -/
def message : EncodeCause → String
  | operandCount mnemonic given slots =>
    mnemonic ++ ": " ++ toString given ++ " operandos para " ++ toString slots ++ " huecos"
  | immediateOverflow mnemonic value bits signed =>
    mnemonic ++ ": inmediato " ++ Numeral.decimal value ++ " desborda " ++ toString bits ++
      " bits (" ++ Numeral.decimal (Integer.bounds bits signed).1 ++ ".." ++
      Numeral.decimal (Integer.bounds bits signed).2 ++ ")"
  | operandMismatch mnemonic operand slot =>
    mnemonic ++ ": operando '" ++ operand.render ++ "' no encaja en hueco " ++ slot.kind
  | badBytes name => "'bytes' inválido en " ++ name
  | valueOverflow name type value => name ++ ": " ++ Numeral.decimal value ++ " desborda " ++ type
  | sizeMismatch name encoded reserved =>
    name ++ ": " ++ toString encoded ++ " bytes codificados, " ++ Numeral.decimal reserved ++
      " reservados"
  | codeMismatch count size =>
    toString count ++ " instrucciones para " ++ Numeral.decimal size ++ " bytes de código"
  | unresolvedLabel object target => object ++ ": etiqueta local sin resolver: " ++ target
  | unresolvedDatum object target => object ++ ": dato sin resolver: " ++ target
  | datumOutside object target => object ++ ": dato '" ++ target ++ "' fuera del segmento de datos"
  | callWithoutLibrary object target => object ++ ": referencia externa sin librería: " ++ target
  | fieldOutside object target offset =>
    object ++ ": reubicación de '" ++ target ++ "' fuera del código (offset " ++
      Numeral.decimal offset ++ ")"
  | offsetRange object target value =>
    object ++ ": desplazamiento de '" ++ target ++ "' fuera de rango: " ++ Numeral.decimal value
  | other message _ => message

/-- The integers that the wording shows in decimal and that may have too many digits. -/
def shown : EncodeCause → List Int
  | immediateOverflow _ value _ _ => [value]
  | operandMismatch _ operand _ => operand.shown
  | valueOverflow _ _ value => [value]
  | sizeMismatch _ _ reserved => [reserved]
  | codeMismatch _ size => [size]
  | fieldOutside _ _ offset => [offset]
  | offsetRange _ _ value => [value]
  | _ => []

end EncodeCause

/-- A cause with its place in a source, if it has one. -/
structure EncodeError where
  cause : EncodeCause
  line : Option Int := none
  col : Option Int := none
  file : Option String := none
  deriving DecidableEq, Repr

namespace EncodeError

/-- A cause at a place of a source. -/
def ofPlace (cause : EncodeCause) (pos : Position) (file : Option String) : EncodeError :=
  ⟨cause, some pos.line, some pos.col, file⟩

/-- The report of an error. -/
def diagnostic (e : EncodeError) : Diagnostic where
  severity := .error
  message := e.cause.message
  line := e.line
  col := e.col
  file := e.file
  stage := .encoding

end EncodeError

/-! ### File formats -/

/-- Why a library cannot be checked against its id. -/
inductive ContentFault where
  | id (e : IdError)
  | extension (e : ExtensionError)
  deriving DecidableEq, Repr

/-- How the remark on an unreadable id words a fault: the name of an algorithm is an unknown key
and stands in quotes. -/
def ContentFault.message : ContentFault → String
  | id (.unknownAlgorithm name) => Text.quote (IdError.unknownAlgorithm name).message
  | id e => e.message
  | extension e => e.message

/-- Why bytes are no file of a format; `what` names the format. -/
inductive FormatError where
  | truncated (what : String) (pos missing : Nat)
  /-- Bytes that are no text, before a position. -/
  | notText (what : String) (pos : Nat)
  | trailing (what : String) (count : Nat)
  | badMagic (what : String) (magic : Bytes)
  | badVersion (what : String) (version : Nat)
  | unknownSymbolKind (code : Nat)
  | unknownRelocationKind (code : Nat)
  /-- A call of a library that the table does not have. -/
  | callIndex (index : Nat)
  | unreadableId (id : String) (fault : ContentFault)
  /-- An id that is not the id of the content. -/
  | wrongId (id : String)
  /-- Code that is no sequence of words. -/
  | brokenWords (size : Nat)
  deriving DecidableEq, Repr

/-- The wording of an error. -/
def FormatError.message : FormatError → String
  | truncated what pos missing =>
    what ++ " truncado en el byte " ++ toString pos ++ " (faltan " ++ toString missing ++ ")"
  | notText what pos => what ++ ": cadena no UTF-8 en el byte " ++ toString pos
  | trailing what count => what ++ ": " ++ toString count ++ " bytes sobrantes"
  | badMagic what magic => "Magia inválida en " ++ what ++ ": " ++ Text.quoteBytes magic
  | badVersion what version => "Versión de " ++ what ++ " no soportada: " ++ toString version
  | unknownSymbolKind code => "Tipo de símbolo desconocido: " ++ toString code
  | unknownRelocationKind code => "Tipo de reubicación desconocido: " ++ toString code
  | callIndex index =>
    "Tabla de llamadas: índice de librería " ++ toString index ++ " fuera de rango"
  | unreadableId id fault => "Id de librería ilegible: " ++ id ++ " (" ++ fault.message ++ ")"
  | wrongId id => "El id " ++ id ++ " no corresponde al contenido de la librería"
  | brokenWords size =>
    "Código de " ++ toString size ++ " bytes: no es múltiplo de " ++ toString wordSize

/-! ### Linking -/

/-- Why a routine of a library is not there. -/
inductive UndefinedReason where
  /-- The library does not export it. -/
  | notExported (library routine : String)
  /-- The environment has no such library; the id that the object fixes is given if it has one. -/
  | unknownLibrary (name : String) (pinned : Option String)
  /-- The object fixes another library than the environment has. -/
  | pinnedElsewhere (name pinned found : String)
  | other (text : String)
  deriving DecidableEq, Repr

/-- The wording of a reason. -/
def UndefinedReason.message : UndefinedReason → String
  | notExported library routine => "la librería " ++ library ++ " no exporta '" ++ routine ++ "'"
  | unknownLibrary name pinned =>
    let shown := match pinned with
      | some id => if id.isEmpty then name else name ++ " (" ++ id ++ ")"
      | none => name
    "librería '" ++ shown ++ "' no está en el entorno de resolución"
  | pinnedElsewhere name pinned found =>
    "'" ++ name ++ "' fijada a " ++ pinned ++ ", pero el entorno da " ++ found
  | other text => text

/-- Why objects cannot be linked. -/
inductive LinkError where
  | undefinedExternal (name : String) (reason : UndefinedReason)
  /-- A name that several objects export. -/
  | duplicateExport (name : String) (objects : List String)
  /-- Extensions that the environment does not support. -/
  | unsupported (missing : List String) (who : Option String)
  /-- Objects that need each other, from one to itself. -/
  | cyclic (chain : List String)
  | tooManyLibraries (object : String) (limit : Nat)
  | nothingToLink
  /-- A library that two objects fix to different ids. -/
  | pinConflict (name first second : String)
  | mergedTooLarge (code data : Nat)
  /-- A symbol beyond the greatest offset. -/
  | mergedOutOfReach (name : String) (offset : Int)
  deriving DecidableEq, Repr

namespace LinkError

/-- The wording of an error. -/
def message : LinkError → String
  | undefinedExternal name reason =>
    "Referencia externa no definida: " ++ name ++ " (" ++ reason.message ++ ")"
  | duplicateExport name objects =>
    "Símbolo exportado duplicado: " ++ name ++
      (if objects.isEmpty then "" else " en " ++ ", ".intercalate objects)
  | unsupported missing who =>
    let subject := match who.filter (!·.isEmpty) with
      | some name => name ++ " requiere"
      | none => "se requiere"
    subject ++ " extensiones ISA no soportadas: " ++ " ".intercalate missing
  | cyclic chain => "Dependencia cíclica entre librerías: " ++ " -> ".intercalate chain
  | tooManyLibraries object limit =>
    object ++ ": más de " ++ toString limit ++ " librerías referenciadas"
  | nothingToLink => "No hay módulos que enlazar"
  | pinConflict name first second =>
    "Alias '" ++ name ++ "' fijado a ids distintos: " ++ first ++ " y " ++ second
  | mergedTooLarge code data =>
    "La fusión excede el tamaño de segmento (" ++ toString code ++ " bytes de código, " ++
      toString data ++ " de datos; máximo " ++ toString maxSegment ++ ")"
  | mergedOutOfReach name offset =>
    "Símbolo '" ++ name ++ "' fuera del rango direccionable tras la fusión (desplazamiento " ++
      Numeral.decimal offset ++ ", máximo " ++ toString maxOffset ++ ")"

/-- The integers that the wording shows in decimal and that may have too many digits. -/
def shown : LinkError → List Int
  | mergedOutOfReach _ offset => [offset]
  | _ => []

end LinkError

/-! ### Manifests and files -/

/-- Why a manifest was refused. -/
inductive ManifestError where
  | notAnObject
  | unknownKeys (keys : List String)
  | badExtensions
  /-- A key whose value has to be of another type. -/
  | wrongType (key type : String)
  /-- A key with a value in which only strings may occur. -/
  | notStrings (key : String)
  | badDigest (e : IdError)
  | badMask (e : ExtensionError)
  | badAlias (e : IdError)
  /-- A file that is no JSON, the fault and the line. -/
  | notJson (path fault : String) (line : Nat)
  deriving DecidableEq, Repr

/-- The wording of a refusal. -/
def ManifestError.message : ManifestError → String
  | notAnObject => "Manifiesto: se esperaba un objeto JSON"
  | unknownKeys keys => "Manifiesto: claves desconocidas: " ++ ", ".intercalate keys
  | badExtensions => "Manifiesto: 'isae' debe ser una lista de nombres"
  | wrongType key type => "Manifiesto: '" ++ key ++ "' debe ser " ++ type
  | notStrings key => "Manifiesto: los valores de '" ++ key ++ "' deben ser cadenas"
  | badDigest e => e.message
  | badMask e => e.message
  | badAlias e => "Manifiesto: " ++ e.message
  | notJson path fault line =>
    path ++ ": JSON inválido (" ++ fault ++ ", línea " ++ toString line ++ ")"

/-- Why a file operation failed. -/
inductive FileFault where
  | missing
  | alreadyThere
  | notDirectory
  | isDirectory
  | nameTooLong
  /-- Any other fault of the system, with its number and its wording. -/
  | other (code : Nat) (text : String)
  deriving DecidableEq, Repr

namespace FileFault

/-- The number of a fault. -/
def code : FileFault → Nat
  | missing => 2
  | alreadyThere => 17
  | notDirectory => 20
  | isDirectory => 21
  | nameTooLong => 36
  | other code _ => code

/-- The wording of a fault. -/
def message : FileFault → String
  | missing => "No such file or directory"
  | alreadyThere => "File exists"
  | notDirectory => "Not a directory"
  | isDirectory => "Is a directory"
  | nameTooLong => "File name too long"
  | other _ text => text

end FileFault

/-- A fault and the path that it concerns. -/
structure FileError where
  fault : FileFault
  path : String
  deriving DecidableEq, Repr

/-- The wording of an error. -/
def FileError.message (e : FileError) : String :=
  "[Errno " ++ toString e.fault.code ++ "] " ++ e.fault.message ++ ": " ++ Text.quote e.path

/-! ### The sum -/

/-- Why a stage failed. -/
inductive Failure where
  /-- A program with errors was to be encoded. -/
  | assembly (reports : List Diagnostic)
  | encoding (e : EncodeError)
  | format (e : FormatError)
  | link (e : LinkError)
  | manifest (e : ManifestError)
  | file (e : FileError)
  /-- A path that no file can have. -/
  | badPath (path : String)
  /-- A file that is no text. -/
  | text (e : Bytes.Utf8Error)
  | number (e : NumberError)
  | id (e : IdError)
  | extension (e : ExtensionError)
  | register (e : RegisterError)
  /-- A number or a count that its field cannot hold. -/
  | fieldRange
  /-- A call of a library that the table does not have. -/
  | unlistedLibrary
  /-- Data of a type that does not exist. -/
  | unknownType
  /-- Data of a type of numbers or digits that are something else. -/
  | notNumeric
  /-- A word that ends before its operands do. -/
  | shortWord
  /-- A number in a source with too many digits. -/
  | overlongLiteral
  /-- Values of a manifest that are nested too deeply. -/
  | tooDeep
  /-- An option that has to have a value and was given a blank one. -/
  | noValue (option : String)
  deriving DecidableEq, Repr

namespace Failure

/-- The integers that the wording of a failure shows in decimal and that may have too many
digits. -/
def shown : Failure → List Int
  | encoding e => e.cause.shown
  | link e => e.shown
  | _ => []

/-- A failure, unless its wording would show a number with too many digits: then that is the
failure. -/
def checked (f : Failure) : Failure :=
  if f.shown.any Numeral.isOverlong then number .overlong else f

/-- A cause without a place. -/
def internal (cause : EncodeCause) : Failure := checked (encoding { cause })

/-- The report of errors of a program that was to be encoded: the first error, or their number if
there is none. -/
def assemblyMessage (reports : List Diagnostic) : String :=
  toString (Diagnostic.countErrors reports) ++ " error(es) de ensamblado"

/-- The report of a failure of the tools' user. -/
def diagnostic? : Failure → Option Diagnostic
  | assembly reports =>
    match reports.find? Diagnostic.isError with
    | some d => some d
    | none => some (.plain .semantic (assemblyMessage reports))
  | encoding e => some e.diagnostic
  | format e => some (.plain .link e.message)
  | link e => some (.plain .link e.message)
  | manifest e => some (.plain .link e.message)
  | _ => none

end Failure

end AluVM
