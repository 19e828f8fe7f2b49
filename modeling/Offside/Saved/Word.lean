/-! Widths as pairs of bytes, the low byte first. -/

namespace Offside.Saved

def wordBytes (w : UInt16) : List UInt8 := [w.toUInt8, .ofNat (w.toNat / 256)]

def wordOf (low high : UInt8) : UInt16 := .ofNat (low.toNat + 256 * high.toNat)

/-- The widths that whole pairs of bytes stand for; a byte without a partner is left over. -/
def words : List UInt8 → List UInt16
  | low :: high :: rest => wordOf low high :: words rest
  | _ => []

@[simp] theorem wordOf_wordBytes (w : UInt16) :
    wordOf w.toUInt8 (.ofNat (w.toNat / 256)) = w := by
  have := w.toNat_lt
  apply UInt16.toNat_inj.1
  simp only [wordOf, UInt16.toNat_ofNat', UInt8.toNat_ofNat', UInt16.toNat_toUInt8]
  omega

/-- The front of the bytes of some widths; half a width at the end counts for nothing. -/
theorem words_take_flatMap_wordBytes (ws : List UInt16) (k : Nat) :
    words ((ws.flatMap wordBytes).take k) = ws.take (k / 2) := by
  induction ws generalizing k with
  | nil =>
      rw [List.flatMap_nil, List.take_nil, List.take_nil]
      rfl
  | cons w ws ih =>
      match k with
      | 0 => rfl
      | 1 => rfl
      | k + 2 =>
        show wordOf w.toUInt8 (.ofNat (w.toNat / 256)) :: words ((ws.flatMap wordBytes).take k) = _
        rw [ih, wordOf_wordBytes, Nat.add_div_right k Nat.two_pos, List.take_succ_cons]

theorem length_flatMap_wordBytes (ws : List UInt16) :
    (ws.flatMap wordBytes).length = 2 * ws.length := by
  induction ws with
  | nil => rfl
  | cons w ws ih =>
    simp only [List.flatMap_cons, List.length_append, ih, wordBytes, List.length_cons,
      List.length_nil]
    omega

end Offside.Saved
