/-! What layout sees of one unit of input: four characters matter, and all others look alike. -/

namespace Offside

/-- A unit of input, as far as layout is concerned. -/
inductive Glyph where
  | space
  | tab
  | lineFeed
  | carriageReturn
  | other
  deriving DecidableEq

namespace Glyph

/-- The look of a number that stands for a code point, or for nothing. -/
def ofCode (n : Int) : Glyph :=
  if n = 32 then .space
  else if n = 9 then .tab
  else if n = 10 then .lineFeed
  else if n = 13 then .carriageReturn
  else .other

def ofChar (c : Char) : Glyph := ofCode c.toNat

theorem ofChar_eq (c : Char) :
    ofChar c =
      if c = ' ' then .space
      else if c = '\t' then .tab
      else if c = '\n' then .lineFeed
      else if c = '\r' then .carriageReturn
      else .other := by
  have hcode : ∀ d : Char, (c.toNat : Int) = d.toNat ↔ c = d := by
    intro d
    rw [Int.ofNat_inj, Char.toNat_inj]
  simp only [ofChar, ofCode, ← hcode]
  rfl

theorem ofChar_eq_lineFeed_iff {c : Char} : ofChar c = .lineFeed ↔ c = '\n' := by
  rw [ofChar_eq]
  by_cases h : c = '\n'
  · simp [h]
  · simp only [h, if_false, iff_false]
    repeat' split
    all_goals simp

end Glyph

end Offside
