import AluVM.Command.Assemble
import AluVM.Command.Link

/-! # The command line

The tools on the disk. The first argument says which tool is meant, and the others are its
arguments. No names of characters are at hand here, so the assembler refuses escapes with names. -/

namespace AluVM

/-- The number and the wording of an error of the system. -/
def systemError : IO.Error → UInt32 × String
  | .alreadyExists _ code text => (code, text)
  | .otherError code text => (code, text)
  | .resourceBusy code text => (code, text)
  | .resourceVanished code text => (code, text)
  | .unsupportedOperation code text => (code, text)
  | .hardwareFault code text => (code, text)
  | .unsatisfiedConstraints code text => (code, text)
  | .illegalOperation code text => (code, text)
  | .protocolError code text => (code, text)
  | .timeExpired code text => (code, text)
  | .interrupted _ code text => (code, text)
  | .noFileOrDirectory _ code text => (code, text)
  | .invalidArgument _ code text => (code, text)
  | .permissionDenied _ code text => (code, text)
  | .resourceExhausted _ code text => (code, text)
  | .inappropriateType _ code text => (code, text)
  | .noSuchThing _ code text => (code, text)
  | .unexpectedEof => (0, "")
  | .userError text => (0, text)

/-- The fault that an error of the system is; numbers may come with the opposite sign. -/
def systemFault (e : IO.Error) : FileFault :=
  let (code, text) := systemError e
  let code := if code < 0x80000000 then code.toNat else (0 - code).toNat
  match code with
  | 2 => .missing
  | 17 => .alreadyThere
  | 20 => .notDirectory
  | 21 => .isDirectory
  | 36 => .nameTooLong
  | code => .other code text

/-- Runs an operation of the system. -/
def system {α : Type} (x : IO α) : IO (Except FileFault α) := do
  match ← x.toBaseIO with
  | .ok a => return .ok a
  | .error e => return .error (systemFault e)

instance : Files IO where
  read path := system do return (← IO.FS.readBinFile path).toList
  write path content := system (IO.FS.writeBinFile path ⟨content.toArray⟩)
  makeDirectory path := system (IO.FS.createDir path)
  isDirectory path := system do (← IO.FS.realPath path).isDir
  list path := system do
    return (← (← IO.FS.realPath path).readDir).toList.map (·.fileName)

/-- Prints how a run ended and gives its code. -/
def report : Outcome → IO UInt32
  | .exit code => return code.toUInt32
  | .finished code out err => do
    IO.print out
    IO.eprint err
    return code.toUInt32
  | .failed e => do
    IO.eprintln ((e.diagnostic?.map (·.render)).getD "ERROR")
    return 1

end AluVM

open AluVM in
/-- Runs the tool that the first argument names. -/
def main (args : List String) : IO UInt32 := do
  match args with
  | "aluasm" :: texts => report (← assembleCommand Syntax.nameless texts)
  | "alulink" :: texts => report (← linkCommand texts)
  | _ => report (.exit 2)
