import Offside.Hex
import Offside.Saved.Decode

/-!
A defect of a saved state as a report: the bytes as hex digits on one line, and under them a label
that points at the digits of the offending byte.
-/

namespace Offside

namespace Saved

/-- Sets words in lines of at most `columns` characters. The first line goes on from `current`, and
every further one starts with `indent`. A line is broken only before a word that does not fit. -/
def wrapFrom (columns : Nat) (indent : String) (current : String) : List String → List String
  | [] => [current]
  | word :: words =>
    if current.length + 1 + word.length ≤ columns then
      wrapFrom columns indent (current ++ " " ++ word) words
    else
      current :: wrapFrom columns indent (indent ++ word) words

/-- The columns of a report that words are set in. -/
def reportColumns : Nat := 78

/-- Where the label starts among the digits of the bytes: at the offending byte, or at the last
one if the defect lies behind it. -/
def labelStart (bytes : List UInt8) (d : Defect) : Nat :=
  min (2 * d.byteOffset bytes.length) (2 * bytes.length - 2)

/-- How many digits the label covers. -/
def labelLength (bytes : List UInt8) : Nat := min (2 * bytes.length) 2

/-- The report of a defect of some bytes, line by line. The label is underlined, and branches off in
its middle. -/
def reportLines (bytes : List UInt8) (d : Defect) : List String :=
  let reason := d.message
  let times (n : Nat) (c : Char) := String.ofList (List.replicate n c)
  let pad := times (labelStart bytes d) ' '
  let left := labelLength bytes / 2
  let right := labelLength bytes - left - 1
  ["rad::state::invalid", ""] ++
    wrapFrom reportColumns "  │ " "  × invalid scanner state:" (reason.splitOn " ") ++
    [ "   ╭────",
      " 1 │ " ++ String.ofList (Hex.encode bytes),
      "   · " ++ pad ++ times left '─' ++ "┬" ++ times right '─',
      "   · " ++ pad ++ times left ' ' ++ "╰── " ++ reason,
      "   ╰────",
      "  help: `rad state decode` without --strict shows what the scanner recovers" ]

def report (bytes : List UInt8) (d : Defect) : String :=
  String.join ((reportLines bytes d).map (· ++ "\n"))

end Saved

end Offside
