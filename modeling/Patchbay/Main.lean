import Patchbay.CommandLine

/-! The program: reads the file that the arguments name, and prints what the command leaves. -/

namespace Patchbay

/-- More rounds and turns than any run makes. -/
def unboundedFuel : Nat := 1000000000000000000

/-- The number of a system error, which may be given with either sign. -/
def systemCode (code : UInt32) : Nat := if code < 0x80000000 then code.toNat else (0 - code).toNat

/-- What kept a file from being read. -/
def faultOf : IO.Error → FileFault
  | .noFileOrDirectory _ _ _ => .notFound
  | .inappropriateType _ code details | .invalidArgument _ code details
  | .permissionDenied _ code details | .resourceExhausted _ code details
  | .otherError code details | .hardwareFault code details =>
    match systemCode code with
    | 20 => .notDirectory
    | 21 => .isDirectory
    | 36 => .nameTooLong
    | code => .refused (systemMessage details code)
  | e => .refused (toString e)

def readContents (file : String) : IO (Except FileFault String) := do
  match ← (IO.FS.readBinFile file).toBaseIO with
  | .error e => return .error (faultOf e)
  | .ok bytes =>
    match String.fromUTF8? bytes with
    | some text => return .ok text
    | none => return .error .notText

end Patchbay

open Patchbay in
def main (args : List String) : IO UInt32 := do
  let exit ← match Command.parse args with
    | none => pure Exit.usage
    | some command =>
      let contents ← match command.file? with
        | some file => readContents file
        | none => pure (.error .notFound)
      pure ((command.execute contents unboundedFuel).getD Exit.usage)
  IO.print exit.output
  IO.eprint exit.errors
  return exit.code.toUInt32
