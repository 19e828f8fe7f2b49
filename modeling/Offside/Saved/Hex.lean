import Offside.Saved.Report

/-! Saved states as hexadecimal text: written from widths, and described in words. -/

namespace Offside

namespace Saved

/-- Why no state is written or described. -/
inductive HexError where
  /-- The widths are not those of any levels. -/
  | notIncreasing (widths : List UInt16)
  | notHex (e : Hex.Error)
  | invalid (bytes : List UInt8) (d : Defect)
  deriving DecidableEq

def HexError.message : HexError → String
  | notIncreasing widths =>
    "Error: levels must start at 0 and strictly increase (got " ++ widthsText widths ++ ")"
  | notHex e => "Error: " ++ e.message
  | invalid bytes d => report bytes d

end Saved

namespace State

/-- The digits of the state with the given levels; no widths at all stand for the base. -/
def hexOfParts (widths : List UInt16) (pending : Option UInt16) :
    Except Saved.HexError (List Char) :=
  let s := State.ofParts widths pending
  if widths = [] || s.levels.toList = widths then .ok (Hex.encode s.toBytes)
  else .error (.notIncreasing widths)

def ofHex (strict : Bool) (text : List Char) : Except Saved.HexError State :=
  match Hex.decode text with
  | .error e => .error (.notHex e)
  | .ok bytes =>
    if strict then (State.decode bytes).mapError (.invalid bytes) else .ok (.recover bytes)

/-- The state in words, on two lines. -/
def describe (s : State) : String :=
  "pending: " ++ (s.pending.elim "none" toString) ++ "\nlevels:  " ++
    widthsText s.levels.toList ++ "\n"

end State

end Offside
