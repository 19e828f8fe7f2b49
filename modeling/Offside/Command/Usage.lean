/-! Why a line of words names no command that can be run. -/

namespace Offside.Command

/-- Why nothing is run. -/
inductive Usage where
  | help
  | version
  | missingCommand
  | unknownCommand
  /-- The command takes no such option, or no further operand. -/
  | unknownArgument
  | missingArgument
  /-- An option lacks its value, or a value is not one of those allowed. -/
  | invalidValue
  | malformedNumber
  | repeated
  | unneededValue
  deriving DecidableEq

namespace Usage

def versionText : String := "rad 0.1.0-alpha.1\n"

/-- The exit code: zero where the answer is what was asked for. -/
def exitCode : Usage → Nat
  | help => 0
  | version => 0
  | _ => 2

def message : Usage → String
  | help | missingCommand =>
    "Usage: rad lex [--json] [--checkpoint] [--capacity BYTES] [--accept KIND] " ++
      "[--keep-comments] FILE\n       rad state encode [--pending WIDTH] [LEVEL]...\n" ++
      "       rad state decode [--strict] HEX...\n"
  | version => versionText
  | unknownCommand => "error: unrecognized subcommand\n"
  | unknownArgument => "error: unexpected argument found\n"
  | missingArgument => "error: a required argument was not provided\n"
  | invalidValue => "error: invalid value\n"
  | malformedNumber => "error: a value is not a number in range\n"
  | repeated => "error: an argument cannot be used multiple times\n"
  | unneededValue => "error: unexpected value for a flag\n"

end Usage

end Offside.Command
