import Offside.Saved.Writer
import Offside.State

/-!
A state as bytes: a flag that says whether a width is pending, the width, the number of levels
and the levels from the base inwards. A deep state keeps its base and its innermost levels. Reading
back never fails, and `recover_save` says what survives.
-/

namespace Offside

namespace Saved

/-- The bytes before the levels. -/
def headerSize : Nat := 4

/-- The most levels that are saved. -/
def maxDepth : Nat := 100

/-- The bytes that a parser sets aside for a state. -/
def bufferSize : Nat := 1024

/-- The bytes that a state of the given depth takes where nothing limits it. -/
def sizeOfDepth (depth : Nat) : Nat := headerSize + 2 * min depth maxDepth

/-- How many of the levels of a state fit into the given capacity. -/
def keptDepth (capacity depth : Nat) : Nat :=
  min (min depth maxDepth) ((capacity - headerSize) / 2)

/-- The levels that are written when the given number of them is kept: the base, and then the
innermost ones. -/
def keptLevels (l : Levels) : Nat → List UInt16
  | 0 => []
  | n + 1 => (l.keep n).toList

def bytesOf (pending : Option UInt16) (levels : List UInt16) : List UInt8 :=
  (if pending.isSome then 1 else 0) :: wordBytes (pending.getD 0) ++
    .ofNat levels.length :: levels.flatMap wordBytes

end Saved

open Saved

namespace State

/-- The state as at most `capacity` bytes: none at all where the header does not fit. -/
def save (capacity : Nat) (s : State) : List UInt8 :=
  if capacity < headerSize then []
  else bytesOf s.pending (keptLevels s.levels (keptDepth capacity s.levels.depth))

/-- Writes what a buffer keeps of the state over the front of it. -/
def writeOver (buffer : List UInt8) (s : State) : Except Writer Writer :=
  (Writer.ofBuffer buffer).putState s.pending
    (keptLevels s.levels (keptDepth buffer.length s.levels.depth))

/-- The number of bytes written to the front of a buffer, and the buffer afterwards. Writing that
breaks off counts as no bytes. -/
def saveInto (buffer : List UInt8) (s : State) : Nat × List UInt8 :=
  if buffer.length < headerSize then (0, buffer)
  else
    match s.writeOver buffer with
    | .ok w => (w.written.length, w.buffer)
    | .error w => (0, w.buffer)

/-- The state as bytes where nothing but the greatest depth limits it. -/
def toBytes (s : State) : List UInt8 := s.save (min (sizeOfDepth s.levels.depth) bufferSize)

/-- Reads whatever the bytes hold. What is missing counts as absent, a width is pending only if all
of it is there, and widths that do not increase open no level. -/
def recover : List UInt8 → State
  | flag :: low :: high :: rest =>
    { levels :=
        match rest with
        | [] => .base
        | count :: bytes => .ofList ((words bytes).take count.toNat)
      pending := if flag = 0 then none else some (wordOf low high) }
  | _ => fresh

end State

namespace Saved

theorem length_keptLevels {l : Levels} {n : Nat} (h : n ≤ l.depth) :
    (keptLevels l n).length = n := by
  cases n with
  | zero => rfl
  | succ n =>
    simp only [Levels.depth] at h
    simp only [keptLevels, Levels.toList, Levels.opened_keep, List.length_cons,
      List.length_reverse, List.length_take]
    omega

theorem ofList_keptLevels (l : Levels) (n : Nat) :
    Levels.ofList (keptLevels l n) = l.keep (n - 1) := by
  cases n with
  | zero => simp [keptLevels, Levels.ofList, Levels.base, Levels.keep]
  | succ n => exact Levels.ofList_toList _

theorem length_bytesOf (pending : Option UInt16) (levels : List UInt16) :
    (bytesOf pending levels).length = headerSize + 2 * levels.length := by
  simp only [bytesOf, wordBytes, List.cons_append, List.nil_append, List.length_cons,
    length_flatMap_wordBytes, headerSize]
  omega

theorem pending_of_written (pending : Option UInt16) :
    (if (if pending.isSome then (1 : UInt8) else 0) = 0 then none
      else some (wordOf (pending.getD 0).toUInt8 (.ofNat ((pending.getD 0).toNat / 256)))) =
      pending := by
  rw [wordOf_wordBytes]
  cases pending with
  | none => rfl
  | some w => rfl

/-- The front of a written state: the pending width, where all of it is there, and the levels of
which both bytes are. -/
theorem recover_take_bytesOf (pending : Option UInt16) {levels : List UInt16}
    (h : levels.length < 256) (k : Nat) :
    State.recover ((bytesOf pending levels).take k) =
      ⟨.ofList (levels.take ((k - 4) / 2)), if 3 ≤ k then pending else none⟩ := by
  -- a cut inside the header leaves no level, and one in front of the end of the width nothing at all
  match k with
  | 0 => rfl
  | 1 => rfl
  | 2 => rfl
  | 3 => exact congrArg (State.mk .base) (pending_of_written pending)
  | k + 4 =>
    have hcount : (UInt8.ofNat levels.length).toNat = levels.length := by
      rw [UInt8.toNat_ofNat']
      exact Nat.mod_eq_of_lt h
    have hread : ((words ((levels.flatMap wordBytes).take k)).take
        (UInt8.ofNat levels.length).toNat) = levels.take (k / 2) := by
      rw [words_take_flatMap_wordBytes, hcount, List.take_of_length_le]
      exact List.length_take_le' _ _
    rw [if_pos (Nat.le_add_left 3 (k + 1)), Nat.add_sub_cancel, ← hread]
    exact congrArg (State.mk _) (pending_of_written pending)

theorem recover_bytesOf (pending : Option UInt16) {levels : List UInt16}
    (h : levels.length < 256) :
    State.recover (bytesOf pending levels) = ⟨.ofList levels, pending⟩ := by
  have hall := recover_take_bytesOf pending h (bytesOf pending levels).length
  have hpairs : (headerSize + 2 * levels.length - 4) / 2 = levels.length := by
    rw [headerSize]
    omega
  have hwidth : 3 ≤ headerSize + 2 * levels.length := by
    rw [headerSize]
    omega
  rwa [List.take_length, length_bytesOf, hpairs, List.take_length, if_pos hwidth] at hall

/-- A state that fits, the number of its levels into a byte and all of it into the buffer, is
written to the end. -/
theorem Writer.putState_of_le {w : Writer} {pending : Option UInt16} {levels : List UInt16}
    (hcount : levels.length < 256) (hroom : (bytesOf pending levels).length ≤ w.rest.length) :
    w.putState pending levels = .ok (w.after (bytesOf pending levels)) := by
  have hparts : bytesOf pending levels =
      [if pending.isSome then 1 else 0] ++ (wordBytes (pending.getD 0) ++
        ([.ofNat levels.length] ++ levels.flatMap wordBytes)) := rfl
  rw [hparts] at hroom ⊢
  obtain ⟨hflag, hroom⟩ := room_after hroom
  obtain ⟨hwidth, hroom⟩ := room_after hroom
  obtain ⟨hnumber, hroom⟩ := room_after hroom
  rw [putState, put_bind_of_le hflag, put_bind_of_le hwidth, if_pos hcount,
    put_bind_of_le hnumber, after_append, after_append, after_append]
  exact putLevels_of_le hroom

theorem keptDepth_le (capacity depth : Nat) :
    keptDepth capacity depth ≤ depth ∧ keptDepth capacity depth ≤ maxDepth := by
  simp only [keptDepth]
  omega

end Saved

namespace State

/-- What survives a save: with a capacity for the header, the pending width, the base and the
innermost of the levels that fit; otherwise nothing. -/
theorem recover_save (capacity : Nat) (s : State) :
    recover (s.save capacity) =
      if capacity < headerSize then fresh
      else ⟨s.levels.keep (keptDepth capacity s.levels.depth - 1), s.pending⟩ := by
  unfold save
  split
  · rfl
  · obtain ⟨hdepth, hmax⟩ := keptDepth_le capacity s.levels.depth
    rw [recover_bytesOf, ofList_keptLevels]
    rw [length_keptLevels hdepth]
    exact Nat.lt_of_le_of_lt hmax (by decide)

/-- A saved state can cause no more marks than the state itself. -/
theorem weight_recover_save_le (capacity : Nat) (s : State) :
    (recover (s.save capacity)).weight ≤ s.weight := by
  rw [recover_save]
  split
  · exact Nat.zero_le _
  · simp only [weight, Levels.opened_keep, List.length_take]
    omega

end State

end Offside
