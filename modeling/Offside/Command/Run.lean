import Offside.Command.Basic
import Offside.Command.Folder
import Offside.Saved.Hex
import Offside.Token.Json
import Offside.Token.Render

/-! Running a command: what it prints, and the code it ends with. -/

namespace Offside.Command

structure Answer where
  exitCode : Nat
  output : String
  errors : String
  deriving DecidableEq

namespace Answer

def success (output : String) : Answer := ⟨0, output, ""⟩

def failure (message : String) : Answer := ⟨1, "", message ++ "\n"⟩

end Answer

def maxSourceSize : Nat := 8 * 1024 * 1024

inductive SourceError where
  | noAccess (e : SystemError)
  | tooLarge (size : Nat)
  | unreadable (e : SystemError)
  /-- The bytes are not those of any text. -/
  | notText
  deriving DecidableEq

def SourceError.message (file : String) : SourceError → String
  | noAccess e => "Cannot access file '" ++ file ++ "': " ++ e.message
  | tooLarge size =>
    "Source file '" ++ file ++ "' is too large (" ++ toString size ++ " bytes, max " ++
      toString maxSourceSize ++ " bytes)"
  | unreadable e => "Error reading file '" ++ file ++ "': " ++ e.message
  | notText => "Error reading file '" ++ file ++ "': stream did not contain valid UTF-8"

/-- The text of a file. Its size is looked at before it is read. -/
def source (a : Access) : Except SourceError (List Char) :=
  match a with
  | .denied e => .error (.noAccess e)
  | .found size contents =>
    if maxSourceSize < size then .error (.tooLarge size)
    else
      match contents with
      | .error e => .error (.unreadable e)
      | .ok bytes =>
        match String.fromUTF8? bytes with
        | some text => .ok text.toList
        | none => .error .notText

/-- What a list of tokens of the given text looks like. -/
def listing (args : LexArgs) (text : List Char) : String :=
  let tokens := Offside.lex args.config text
  if args.json then tokensJson tokens ++ "\n" else String.ofList (render text tokens)

/-- Runs a command, for which `access` looks at files. -/
def run (access : String → Access) : Command → Answer
  | .lex file args =>
    match source (access file) with
    | .ok text => .success (listing args text)
    | .error e => .failure (e.message file)
  | .encode args =>
    match State.hexOfParts args.levels args.pending with
    | .ok digits => .success (String.ofList digits ++ "\n")
    | .error e => .failure e.message
  | .decode args =>
    match State.ofHex args.strict (String.join args.hex).toList with
    | .ok s => .success s.describe
    | .error e => .failure e.message

end Offside.Command
