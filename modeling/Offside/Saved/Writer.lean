import Offside.Saved.Word

/-!
Writing a state into a buffer of a fixed size, one part after the other. A part that does not fit is
not written, and nothing is written behind it.
-/

namespace Offside.Saved

/-- A buffer that is being written: the bytes written so far, and those behind them as they were. -/
structure Writer where
  written : List UInt8
  rest : List UInt8

namespace Writer

def ofBuffer (buffer : List UInt8) : Writer := ⟨[], buffer⟩

def buffer (w : Writer) : List UInt8 := w.written ++ w.rest

/-- The writer that has written some bytes over those that come next. -/
def after (w : Writer) (bytes : List UInt8) : Writer :=
  ⟨w.written ++ bytes, w.rest.drop bytes.length⟩

/-- Writes some bytes. A writer without room for all of them is given back as an error, as it
stands. -/
def put (w : Writer) (bytes : List UInt8) : Except Writer Writer :=
  if bytes.length ≤ w.rest.length then .ok (w.after bytes) else .error w

def putLevels (w : Writer) (levels : List UInt16) : Except Writer Writer :=
  levels.foldlM (fun w level => w.put (wordBytes level)) w

/-- Writes the flag, the pending width, the number of levels and the levels. The number must fit
into its byte. -/
def putState (w : Writer) (pending : Option UInt16) (levels : List UInt16) :
    Except Writer Writer := do
  let w ← w.put [if pending.isSome then 1 else 0]
  let w ← w.put (wordBytes (pending.getD 0))
  let w ← if levels.length < 256 then w.put [.ofNat levels.length] else .error w
  w.putLevels levels

variable {w : Writer} {bytes bytes' : List UInt8}

theorem after_nil (w : Writer) : w.after [] = w := by
  rw [after, List.append_nil, List.length_nil, List.drop_zero]

theorem after_append (w : Writer) (bytes bytes' : List UInt8) :
    w.after (bytes ++ bytes') = (w.after bytes).after bytes' := by
  simp only [after, List.append_assoc, List.drop_drop, List.length_append]

theorem room_after (h : (bytes ++ bytes').length ≤ w.rest.length) :
    bytes.length ≤ w.rest.length ∧ bytes'.length ≤ (w.after bytes).rest.length := by
  rw [List.length_append] at h
  rw [after, List.length_drop]
  omega

theorem put_bind_of_le (h : bytes.length ≤ w.rest.length) (next : Writer → Except Writer Writer) :
    (w.put bytes >>= next) = next (w.after bytes) := by
  rw [put, if_pos h]
  rfl

theorem putLevels_of_le {levels : List UInt16}
    (h : (levels.flatMap wordBytes).length ≤ w.rest.length) :
    w.putLevels levels = .ok (w.after (levels.flatMap wordBytes)) := by
  induction levels generalizing w with
  | nil => exact congrArg Except.ok w.after_nil.symm
  | cons level levels ih =>
      obtain ⟨hlevel, hlevels⟩ := room_after h
      calc w.putLevels (level :: levels)
        _ = (w.put (wordBytes level) >>= fun w => w.putLevels levels) := rfl
        _ = (w.after (wordBytes level)).putLevels levels := put_bind_of_le hlevel _
        _ = .ok ((w.after (wordBytes level)).after (levels.flatMap wordBytes)) := ih hlevels
        _ = .ok (w.after ((level :: levels).flatMap wordBytes)) :=
            congrArg Except.ok (w.after_append _ _).symm

end Writer

end Offside.Saved
