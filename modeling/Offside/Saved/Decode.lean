import Offside.Saved.Basic

/-!
Reading a saved state with care. Only what saving can write is accepted, and the first byte that
breaks a rule decides which defect is named.
-/

namespace Offside

/-- Why some bytes are no saved state. -/
inductive Defect where
  | truncated (field : String) (offset : Nat)
  | invalidPendingFlag (flag : UInt8)
  | strayPendingWidth (width : UInt16)
  | depthOutOfRange (depth : UInt8)
  | emptyStack
  | nonZeroBase (level : UInt16)
  | notIncreasing (index : Nat) (level previous : UInt16)
  | trailingBytes (count : Nat)
  deriving DecidableEq

namespace Defect

def message : Defect → String
  | truncated field offset =>
    "buffer ends inside the " ++ field ++ " (offset " ++ toString offset ++ ")"
  | invalidPendingFlag flag => "pending flag must be 0 or 1, found " ++ toString flag
  | strayPendingWidth width =>
    "pending width " ++ toString width ++ " stored without the pending flag"
  | depthOutOfRange depth => "stack depth " ++ toString depth ++ " exceeds the maximum of 100"
  | emptyStack => "stack depth is 0; the base level is missing"
  | nonZeroBase level => "base level must be 0, found " ++ toString level
  | notIncreasing index level previous =>
    "level " ++ toString level ++ " at index " ++ toString index ++
      " is not wider than the level below it (" ++ toString previous ++ ")"
  | trailingBytes count => toString count ++ " unexpected trailing byte(s)"

/-- Where the offending field starts, in a buffer of the given size. -/
def byteOffset (size : Nat) : Defect → Nat
  | truncated _ offset => offset
  | invalidPendingFlag _ => 0
  | strayPendingWidth _ => 1
  | depthOutOfRange _ => 3
  | emptyStack => 3
  | nonZeroBase _ => 4
  | notIncreasing index _ _ => 4 + 2 * index
  | trailingBytes count => size - count

end Defect

namespace Saved

/-- The pending width that a flag and a width say. -/
def decodePending (flag : UInt8) (width : UInt16) : Except Defect (Option UInt16) :=
  if flag = 0 then
    if width = 0 then .ok none else .error (.strayPendingWidth width)
  else if flag = 1 then .ok (some width)
  else .error (.invalidPendingFlag flag)

/-- Opens the given number of levels, each wider than the one before, and expects nothing behind
the last. -/
def decodeOpened (l : Levels) : Nat → List UInt8 → Except Defect Levels
  | 0, [] => .ok l
  | 0, rest => .error (.trailingBytes rest.length)
  | n + 1, low :: high :: rest =>
    if l.top < wordOf low high then decodeOpened (l.push (wordOf low high)) n rest
    else .error (.notIncreasing l.depth (wordOf low high) l.top)
  | _ + 1, _ => .error (.truncated "indent level" (headerSize + 2 * l.depth))

def decodeLevels : List UInt8 → Except Defect Levels
  | [] => .error (.truncated "stack depth" 3)
  | count :: rest =>
    if maxDepth < count.toNat then .error (.depthOutOfRange count)
    else if count = 0 then .error .emptyStack
    else
      match rest with
      | low :: high :: rest =>
        if wordOf low high = 0 then decodeOpened .base (count.toNat - 1) rest
        else .error (.nonZeroBase (wordOf low high))
      | _ => .error (.truncated "indent level" headerSize)

end Saved

/-- The state that the bytes were written from; no bytes at all are the fresh state. -/
def State.decode : List UInt8 → Except Defect State
  | [] => .ok .fresh
  | flag :: low :: high :: rest => do
    let pending ← Saved.decodePending flag (Saved.wordOf low high)
    let levels ← Saved.decodeLevels rest
    return ⟨levels, pending⟩
  | _ => .error (.truncated "pending width" 1)

end Offside
