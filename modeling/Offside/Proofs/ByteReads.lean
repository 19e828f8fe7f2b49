import Offside.Saved.Decode

/-! Saved bytes, read one field after the other. A read for which too few bytes are left takes none of
them, so that the next one starts at the same byte. Either way of reading a state is a row of such
reads, which collects the widths and opens the levels at the end. -/

namespace Offside

theorem Levels.getLast?_toList (l : Levels) : l.toList.getLast? = some l.top := by
  rw [toList, List.getLast?_cons, List.getLast?_reverse, top, List.headD_eq_head?_getD]

namespace Saved

/-- The next byte, if there is one, and the bytes behind it. -/
def readByte : List UInt8 → Option UInt8 × List UInt8
  | [] => (none, [])
  | b :: bytes => (some b, bytes)

/-- The next width, if both bytes of it are there, and the bytes behind it. -/
def readWidth : List UInt8 → Option UInt16 × List UInt8
  | low :: high :: bytes => (some (wordOf low high), bytes)
  | bytes => (none, bytes)

/-- So many widths, or as many as are there. -/
def readWidths : Nat → List UInt8 → List UInt16
  | 0, _ => []
  | n + 1, bytes =>
    match readWidth bytes with
    | (some w, bytes) => w :: readWidths n bytes
    | (none, _) => []

/-- What a read gives, or the defect that the bytes end inside its field. -/
def orTruncated {α : Type} (field : String) (offset : Nat) : Option α → Except Defect α
  | some a => .ok a
  | none => .error (.truncated field offset)

/-- So many widths behind those collected, the first of all zero and each wider than the one before,
and the bytes behind them. -/
def collect (ws : List UInt16) : Nat → List UInt8 → Except Defect (List UInt16 × List UInt8)
  | 0, bytes => .ok (ws, bytes)
  | n + 1, bytes => do
    let (w, bytes) := readWidth bytes
    let w ← orTruncated "indent level" (headerSize + 2 * ws.length) w
    match ws.getLast? with
    | none => if w = 0 then collect [w] n bytes else .error (.nonZeroBase w)
    | some previous =>
      if previous < w then collect (ws ++ [w]) n bytes
      else .error (.notIncreasing ws.length w previous)

/-- The levels that the collected widths open, if no bytes are left. -/
def openCollected : List UInt16 × List UInt8 → Except Defect Levels
  | (ws, []) => .ok (.ofList ws)
  | (_, bytes) => .error (.trailingBytes bytes.length)

/-- Reads the levels, which are opened when all of their widths are there. -/
def levelFields (bytes : List UInt8) : Except Defect Levels := do
  let (count, bytes) := readByte bytes
  let count ← orTruncated "stack depth" 3 count
  if maxDepth < count.toNat then .error (.depthOutOfRange count)
  else if count = 0 then .error .emptyStack
  else collect [] count.toNat bytes >>= openCollected

end Saved

open Saved

namespace State

/-- Reads whatever the bytes hold, field by field. -/
def recoverFields (bytes : List UInt8) : State :=
  let (flag, bytes) := readByte bytes
  let (width, bytes) := readWidth bytes
  let (count, bytes) := readByte bytes
  let pending :=
    match flag, width with
    | some flag, some width => if flag = 0 then none else some width
    | _, _ => none
  .ofParts (readWidths (count.getD 0).toNat bytes) pending

/-- Reads with care, field by field. -/
def decodeFields (bytes : List UInt8) : Except Defect State := do
  if bytes = [] then return .fresh
  let (flag, bytes) := readByte bytes
  let flag ← orTruncated "pending flag" 0 flag
  let (width, bytes) := readWidth bytes
  let width ← orTruncated "pending width" 1 width
  let pending ← decodePending flag width
  let levels ← levelFields bytes
  return ⟨levels, pending⟩

end State

namespace Saved

theorem readWidths_eq (n : Nat) (bytes : List UInt8) :
    readWidths n bytes = (words bytes).take n := by
  induction n generalizing bytes with
  | zero => rfl
  | succ n ih =>
      match bytes with
      | [] => rfl
      | [_] => rfl
      | low :: high :: bytes => exact congrArg (wordOf low high :: ·) (ih bytes)

/-- The levels are the same whether they are opened as they are read or when all have been. -/
theorem collect_toList_bind (l : Levels) (n : Nat) (bytes : List UInt8) :
    collect l.toList n bytes >>= openCollected = decodeOpened l n bytes := by
  induction n generalizing l bytes with
  | zero =>
      cases bytes with
      | nil => exact congrArg Except.ok l.ofList_toList
      | cons b bytes => rfl
  | succ n ih =>
      have htruncated : Defect.truncated "indent level" (headerSize + 2 * l.toList.length) =
          .truncated "indent level" (headerSize + 2 * l.depth) := by rw [Levels.length_toList]
      match bytes with
      | [] => exact congrArg Except.error htruncated
      | [_] => exact congrArg Except.error htruncated
      | low :: high :: bytes =>
          have hcollect : collect l.toList (n + 1) (low :: high :: bytes) =
              if l.top < wordOf low high then collect (l.toList ++ [wordOf low high]) n bytes
              else .error (.notIncreasing l.depth (wordOf low high) l.top) := by
            rw [collect, Levels.getLast?_toList, Levels.length_toList]
            rfl
          rw [hcollect, decodeOpened]
          split
          · rename_i hwider
            rw [← Levels.toList_push hwider]
            exact ih (l.push (wordOf low high)) bytes
          · rfl

/-- The width of the base is collected first. -/
theorem collect_nil_bind {count : Nat} (hpos : 0 < count) (bytes : List UInt8) :
    collect [] count bytes >>= openCollected =
      match bytes with
      | low :: high :: bytes =>
        if wordOf low high = 0 then decodeOpened .base (count - 1) bytes
        else .error (.nonZeroBase (wordOf low high))
      | _ => .error (.truncated "indent level" headerSize) := by
  obtain ⟨n, rfl⟩ := Nat.exists_eq_add_one.2 hpos
  match bytes with
  | [] => rfl
  | [_] => rfl
  | low :: high :: bytes =>
      have hcollect : collect [] (n + 1) (low :: high :: bytes) =
          if wordOf low high = 0 then collect [wordOf low high] n bytes
          else .error (.nonZeroBase (wordOf low high)) := rfl
      rw [hcollect]
      dsimp only
      split
      · rename_i hbase
        rw [hbase]
        exact collect_toList_bind .base n bytes
      · rfl

theorem decodeLevels_eq_levelFields (bytes : List UInt8) :
    decodeLevels bytes = levelFields bytes := by
  cases bytes with
  | nil => rfl
  | cons count bytes =>
      have hfields : levelFields (count :: bytes) =
          if maxDepth < count.toNat then .error (.depthOutOfRange count)
          else if count = 0 then .error .emptyStack
          else collect [] count.toNat bytes >>= openCollected := rfl
      rw [hfields]
      by_cases hzero : count = 0
      · rw [hzero]
        rfl
      · have hpos : 0 < count.toNat :=
          Nat.pos_of_ne_zero fun h => hzero (UInt8.toNat_inj.1 h)
        rw [collect_nil_bind hpos]
        rfl

end Saved

namespace State

theorem recover_eq_recoverFields (bytes : List UInt8) : recover bytes = recoverFields bytes := by
  match bytes with
  | [] => rfl
  | [_] => rfl
  | [_, count] =>
      have hnone : readWidths count.toNat [] = [] := (readWidths_eq _ _).trans List.take_nil
      exact (congrArg (ofParts · none) hnone).symm
  | [_, _, _] => rfl
  | flag :: low :: high :: count :: bytes =>
      have hwidths := readWidths_eq count.toNat bytes
      exact (congrArg (ofParts · (if flag = 0 then none else some (wordOf low high))) hwidths).symm

theorem decode_eq_decodeFields (bytes : List UInt8) : decode bytes = decodeFields bytes := by
  match bytes with
  | [] => rfl
  | [_] => rfl
  | [_, _] => rfl
  | flag :: low :: high :: bytes =>
      rw [decode, decodeLevels_eq_levelFields]
      rfl

end State

end Offside
