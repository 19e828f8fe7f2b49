import Offside.LineBreak
import Offside.State

/-!
One call of the layout scanner. It takes the state the last call left, the marks that are accepted
here and the input from here on, and gives at most one mark. Only a line break consumes input.
-/

namespace Offside

structure Outcome where
  mark : Option Mark
  state : State
  /-- The units consumed; the mark stands behind them. -/
  consumed : Nat
  deriving DecidableEq

/-- The state in which a line break has been read and its line is still to be settled. -/
def State.await (s : State) (b : LineBreak) : State := { s with pending := some b.width }

theorem State.weight_await_le (s : State) (b : LineBreak) : (s.await b).weight ≤ s.weight + 2 := by
  simp only [await, weight, Option.toList_some, List.length_singleton]
  omega

/-- A pending line goes first, then the end of the input, then a line break. -/
def scan {α : Type} (glyph : α → Glyph) (accept : MarkSet) (s : State) (input : List α) :
    Outcome :=
  match s.settle accept with
  | (some mark, t) => ⟨some mark, t, 0⟩
  | (none, t) =>
    match input with
    | [] =>
      if accept.dedent && t.levels.isOpen then ⟨some .dedent, t.close, 0⟩ else ⟨none, t, 0⟩
    | c :: cs =>
      if accept.newline && glyph c = .lineFeed then
        let b := LineBreak.read glyph cs
        ⟨some .newline, t.await b, b.length⟩
      else
        ⟨none, t, 0⟩

variable {α : Type} (glyph : α → Glyph) (accept : MarkSet) (s : State) (input : List α)

theorem consumed_scan_le : (scan glyph accept s input).consumed ≤ input.length := by
  unfold scan
  split
  · simp
  · split
    · split <;> simp
    · split
      · rename_i c cs _
        exact (LineBreak.length_read glyph cs).2
      · simp

theorem consumed_scan_of_mark_none (h : (scan glyph accept s input).mark = none) :
    (scan glyph accept s input).consumed = 0 := by
  revert h
  unfold scan
  split
  · simp
  · split
    · split <;> simp
    · split <;> simp

/-- Every mark uses up weight: three for each unit of input, and that of the state. -/
theorem weight_scan :
    3 * (input.length - (scan glyph accept s input).consumed) +
        (scan glyph accept s input).state.weight +
        (if (scan glyph accept s input).mark.isSome then 1 else 0) ≤
      3 * input.length + s.weight := by
  have hsettle := s.weight_settle accept
  unfold scan
  split
  · rename_i mark t h
    rw [h] at hsettle
    simpa [Nat.add_assoc] using hsettle
  · rename_i t h
    simp only [h] at hsettle
    split
    · split
      · rename_i hopen
        have := State.weight_close (Bool.and_eq_true_iff.1 hopen).2
        simp at hsettle ⊢
        omega
      · simpa using hsettle
    · split
      · rename_i c cs _
        have hread := LineBreak.length_read glyph cs
        have := t.weight_await_le (LineBreak.read glyph cs)
        simp at hsettle ⊢
        omega
      · simpa using hsettle

variable {glyph accept s input} {t : State} {n : Nat}

theorem weight_lt_of_scan {m : Mark} (h : scan glyph accept s input = ⟨some m, t, n⟩) :
    3 * (input.length - n) + t.weight < 3 * input.length + s.weight := by
  have hw := weight_scan glyph accept s input
  rw [h, Option.isSome_some, if_pos rfl] at hw
  exact hw

theorem weight_le_of_scan (h : scan glyph accept s input = ⟨none, t, n⟩) :
    t.weight ≤ s.weight := by
  have hw := weight_scan glyph accept s input
  have hn := consumed_scan_of_mark_none glyph accept s input
  rw [h] at hw hn
  have hzero : n = 0 := hn rfl
  rw [Option.isSome_none, if_neg Bool.false_ne_true, hzero] at hw
  simp only [Nat.sub_zero] at hw
  omega

end Offside
