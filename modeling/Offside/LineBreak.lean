import Offside.Glyph

/-!
A line break as layout reads it: a line feed, the blanks after it, and every further line that
holds blanks alone. Only the line it ends on is measured.
-/

namespace Offside

/-- How far a line break has been read. -/
structure LineBreak where
  length : Nat
  /-- The spaces at the start of the line reached. -/
  spaces : Nat
  tabs : Nat
  deriving DecidableEq

namespace LineBreak

/-- A tab counts as four columns, and no line is wider than a width can say. -/
def width (b : LineBreak) : UInt16 := .ofNat (min (b.spaces + 4 * b.tabs) 65535)

variable {α : Type} (glyph : α → Glyph)

/-- Reads as far as the break goes. A line starts with spaces and then tabs: a space behind a tab
ends the break, as does any other unit, while a line feed or a carriage return starts a new line. -/
def extend (b : LineBreak) : List α → LineBreak
  | [] => b
  | c :: cs =>
    match glyph c with
    | .space => if b.tabs = 0 then extend ⟨b.length + 1, b.spaces + 1, 0⟩ cs else b
    | .tab => extend ⟨b.length + 1, b.spaces, b.tabs + 1⟩ cs
    | .lineFeed => extend ⟨b.length + 1, 0, 0⟩ cs
    | .carriageReturn => extend ⟨b.length + 1, 0, 0⟩ cs
    | .other => b

/-- The break whose line feed has just been read, before the given input. -/
def read (input : List α) : LineBreak := extend glyph ⟨1, 0, 0⟩ input

theorem length_extend (b : LineBreak) (input : List α) :
    b.length ≤ (extend glyph b input).length ∧
      (extend glyph b input).length ≤ b.length + input.length := by
  induction input generalizing b with
  | nil => simp [extend]
  | cons c cs ih =>
    simp only [extend, List.length_cons]
    split
    · split
      · have := ih ⟨b.length + 1, b.spaces + 1, 0⟩
        simp only at this
        omega
      · omega
    · have := ih ⟨b.length + 1, b.spaces, b.tabs + 1⟩
      simp only at this
      omega
    · have := ih ⟨b.length + 1, 0, 0⟩
      simp only at this
      omega
    · have := ih ⟨b.length + 1, 0, 0⟩
      simp only at this
      omega
    · omega

theorem length_read (input : List α) :
    1 ≤ (read glyph input).length ∧ (read glyph input).length ≤ input.length + 1 := by
  simpa only [read, Nat.add_comm] using length_extend glyph ⟨1, 0, 0⟩ input

end LineBreak

end Offside
