import Offside.Command.Run

/-! The command line. -/

namespace Offside.Command

/-- The error with the given number, which may be given as its negative in 32 bits. -/
def SystemError.ofNumber (number : UInt32) (text : String) : SystemError :=
  let number := number.toInt32.toInt.natAbs
  (known.find? (·.number = some number)).getD ⟨text, some number⟩

def SystemError.ofIO : IO.Error → SystemError
  | .noFileOrDirectory _ number text => .ofNumber number text
  | .inappropriateType _ number text => .ofNumber number text
  | .permissionDenied _ number text => .ofNumber number text
  | .invalidArgument _ number text => .ofNumber number text
  | .otherError number text => .ofNumber number text
  | e => ⟨toString e, none⟩

def accessOnDisk (file : String) : IO Access := do
  try
    let bytes ← IO.FS.readBinFile file
    return .found bytes.size (.ok bytes)
  catch e =>
    let e := SystemError.ofIO e
    return if e.preventsAccess then .denied e else .found 0 (.error e)

/-- Prints what a line of words leads to, and gives the exit code. -/
def runOnDisk (words : List String) : IO UInt32 := do
  match parse words with
  | .error usage =>
    if usage.exitCode = 0 then IO.print usage.message else IO.eprint usage.message
    return .ofNat usage.exitCode
  | .ok command =>
    let access ← match command with
      | .lex file _ => accessOnDisk file
      | _ => pure (.denied .noSuchFile)
    let answer := command.run fun _ => access
    IO.print answer.output
    IO.eprint answer.errors
    return .ofNat answer.exitCode

end Offside.Command

def main (words : List String) : IO UInt32 := Offside.Command.runOnDisk words
