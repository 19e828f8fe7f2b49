import Offside.Levels
import Offside.Mark

/-!
The layout state between two calls: the open levels, and the width of a line whose layout is not
settled yet.
-/

namespace Offside

/-- What one call of the scanner leaves for the next. -/
@[ext] structure State where
  levels : Levels
  /-- The width of the current line while it may still open or close levels. -/
  pending : Option UInt16
  deriving DecidableEq

namespace State

def fresh : State := ⟨.base, none⟩

/-- Any widths and any pending width, as a state. -/
def ofParts (widths : List UInt16) (pending : Option UInt16) : State :=
  ⟨.ofList widths, pending⟩

/-- The number of marks that the state alone can still cause, at most. -/
def weight (s : State) : Nat := s.levels.opened.length + 2 * s.pending.toList.length

/-- Compares the pending width with the innermost level. A wider line opens one level, a narrower
one closes one and may stay pending, and one of the same width is settled without a mark. A mark
that is not accepted leaves the width pending. -/
def settle (accept : MarkSet) (s : State) : Option Mark × State :=
  match s.pending with
  | none => (none, s)
  | some w =>
    if accept.indent && s.levels.top < w then
      (some .indent, ⟨s.levels.push w, none⟩)
    else if accept.dedent && w < s.levels.top then
      (some .dedent, ⟨s.levels.close, if s.levels.close.top ≤ w then none else some w⟩)
    else
      (none, ⟨s.levels, if w = s.levels.top then none else some w⟩)

def close (s : State) : State := { s with levels := s.levels.close }

theorem weight_close {s : State} (h : s.levels.isOpen = true) : s.close.weight + 1 = s.weight := by
  have := List.length_pos_iff.2 (Levels.isOpen_eq_true_iff.1 h)
  simp only [close, weight, Levels.opened_close, List.length_tail]
  omega

@[simp] theorem settle_of_pending_none {s : State} (h : s.pending = none) (accept : MarkSet) :
    s.settle accept = (none, s) := by
  simp [settle, h]

/-- Every mark that settling causes uses up weight, and settling never adds any. -/
theorem weight_settle (accept : MarkSet) (s : State) :
    (s.settle accept).2.weight + (if (s.settle accept).1.isSome then 1 else 0) ≤ s.weight := by
  obtain ⟨levels, pending⟩ := s
  cases pending with
  | none => simp
  | some w =>
    simp only [settle]
    split
    · rename_i h
      have hlt : levels.top < w := by simpa using (Bool.and_eq_true_iff.1 h).2
      simp [weight, Levels.push_of_lt hlt]
    · split
      · rename_i h
        have hlt : w < levels.top := by simpa using (Bool.and_eq_true_iff.1 h).2
        have hopen : levels.opened ≠ [] :=
          Levels.top_pos_iff.1 (Nat.lt_of_le_of_lt (Nat.zero_le _) hlt)
        have hlen := List.length_pos_iff.2 hopen
        simp only [weight, Levels.opened_close, List.length_tail]
        split <;> simp <;> omega
      · simp only [weight]
        split <;> simp

end State

end Offside
