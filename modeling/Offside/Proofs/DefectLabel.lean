import Offside.Proofs.FirstDefect
import Offside.Proofs.HexDigits
import Offside.Saved.Report

/-! The label in the report of a defect. It always covers the two digits of a byte: of the one at the
offset of the defect, or of the last one where the bytes end at that offset. -/

namespace Offside

namespace Saved

theorem Slot.start_lt_stop (f : Slot) : f.start < f.stop := by
  cases f with
  | flag => decide
  | width => decide
  | depth => decide
  | level index =>
      rw [start, stop]
      omega

namespace IsFound

variable {bytes : List UInt8} {d : Defect}

theorem byteOffset_le (h : IsFound bytes d) : d.byteOffset bytes.length ≤ bytes.length := by
  cases h with
  | broken f _ hoffset hthere =>
      rw [← hoffset]
      exact Nat.le_trans (Nat.le_of_lt f.start_lt_stop) hthere
  | missing f _ hdefect hreached =>
      rw [hdefect]
      exact hreached
  | trailing _ count _ _ hoffset _ hlength =>
      rw [hoffset, hlength]
      exact Nat.le_add_right _ count

/-- A defect lies behind the last byte only where a whole field is missing. -/
theorem byteOffset_eq_iff (h : IsFound bytes d) :
    d.byteOffset bytes.length = bytes.length ↔
      ∃ f : Slot, f.IsDue bytes ∧ d = .truncated f.name f.start ∧ f.start = bytes.length := by
  constructor
  · intro hend
    cases h with
    | broken f _ hoffset hthere =>
        have hlt := f.start_lt_stop
        omega
    | missing f hdue hdefect =>
        refine ⟨f, hdue, hdefect, ?_⟩
        rw [hdefect] at hend
        exact hend
    | trailing _ _ _ _ hoffset hcount hlength => omega
  · rintro ⟨f, -, rfl, hstart⟩
    exact hstart

end IsFound

/-- The digits that a label of a defect covers are those of one byte. -/
theorem labelStart_eq {bytes : List UInt8} {d : Defect} (hne : bytes ≠ [])
    (hle : d.byteOffset bytes.length ≤ bytes.length) :
    ∃ index, index < bytes.length ∧ labelStart bytes d = 2 * index ∧
      if d.byteOffset bytes.length = bytes.length then index + 1 = bytes.length
      else index = d.byteOffset bytes.length := by
  have hpos := List.length_pos_iff.2 hne
  split
  · rename_i hend
    refine ⟨bytes.length - 1, Nat.sub_lt hpos Nat.one_pos, ?_, Nat.sub_add_cancel hpos⟩
    rw [labelStart, hend]
    omega
  · rename_i hinside
    refine ⟨_, Nat.lt_of_le_of_ne hle hinside, ?_, rfl⟩
    rw [labelStart]
    omega

end Saved

open Saved

/-- **The label of a defect covers a byte that is there.** The offset of the defect is at most that
of the end of the bytes, and the label covers both digits of the byte at it, or of the last byte
where it is the end. -/
theorem State.label_covers_byte {bytes : List UInt8} {d : Defect} (h : State.decode bytes = .error d) :
    let offset := d.byteOffset bytes.length
    let digits := Hex.encode bytes
    let start := labelStart bytes d
    let length := labelLength bytes
    (bytes ≠ [] ∧ offset ≤ bytes.length ∧
      (offset = bytes.length ↔
        ∃ f : Slot, f.IsDue bytes ∧ d = .truncated f.name f.start ∧ f.start = bytes.length)) ∧
    (length = 2 ∧ start % 2 = 0 ∧ start + length ≤ digits.length) ∧
    ∃ index, ∃ hindex : index < bytes.length, start = 2 * index ∧
      (digits.drop start).take length = Hex.byteDigits bytes[index] ∧
      if offset = bytes.length then index + 1 = bytes.length else index = offset := by
  intro offset digits start length
  have hfound := (refusal_of_decode h).isFound
  have hne : bytes ≠ [] := by
    rintro rfl
    cases h
  have hpos := List.length_pos_iff.2 hne
  obtain ⟨index, hindex, hstart, hbyte⟩ := labelStart_eq hne hfound.byteOffset_le
  replace hstart : start = 2 * index := hstart
  have hlength : length = 2 := Nat.min_eq_right (by omega)
  refine ⟨⟨hne, hfound.byteOffset_le, hfound.byteOffset_eq_iff⟩, ⟨hlength, ?_, ?_⟩,
    index, hindex, hstart, ?_, hbyte⟩
  · rw [hstart]
    exact Nat.mul_mod_right 2 index
  · rw [hstart, hlength, Hex.length_encode]
    omega
  · rw [hstart, hlength]
    exact Hex.take_drop_encode hindex

/-- The bytes end behind the pending width, so that the label covers the last byte of it. -/
theorem State.label_covers_byte_of_missing_depth :
    let bytes : List UInt8 := [1, 0xab, 0xcd]
    let d : Defect := .truncated "stack depth" 3
    State.decode bytes = .error d ∧ labelStart bytes d = 4 ∧ labelLength bytes = 2 ∧
      labelStart bytes d + labelLength bytes ≤ (Hex.encode bytes).length ∧
      ((Hex.encode bytes).drop (labelStart bytes d)).take (labelLength bytes) = ['c', 'd'] := by
  intro bytes d
  have hdecode : State.decode bytes = .error d := by rfl
  obtain ⟨-, ⟨hlength, -, hinside⟩, index, hindex, hstart, hdigits, hbyte⟩ :=
    State.label_covers_byte hdecode
  have hlast : index + 1 = 3 := hbyte
  obtain rfl : index = 2 := Nat.succ.inj hlast
  have hlastDigits : Hex.byteDigits 0xcd = ['c', 'd'] := by decide
  exact ⟨hdecode, hstart, hlength, hinside, hdigits.trans hlastDigits⟩

end Offside
