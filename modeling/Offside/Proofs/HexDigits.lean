import Offside.Hex

/-! Digits that are written and read back. Reading drops a `0x` at the start and all blanks and
underscores behind it, so digits that are spread out with these are read as they were written. -/

namespace Offside.Hex

/-- What may stand between digits. -/
def IsGap (c : Char) : Prop := Text.isBlank c = true ∨ c = '_'

/-- The second list holds the characters of the first in the same order, with gaps put in anywhere
between them, before them and behind them. -/
inductive Spaced : List Char → List Char → Prop where
  | nil : Spaced [] []
  | digit {ds text : List Char} (d : Char) (h : Spaced ds text) : Spaced (d :: ds) (d :: text)
  | gap {ds text : List Char} {c : Char} (hgap : IsGap c) (h : Spaced ds text) :
      Spaced ds (c :: text)

/-- A character that is kept when the gaps are dropped. -/
def isKept (c : Char) : Bool := !Text.isBlank c && c != '_'

theorem isKept_eq_false_of_gap {c : Char} (h : IsGap c) : isKept c = false := by
  rcases h with h | rfl
  · simp [isKept, h]
  · decide

theorem Spaced.filter_eq {ds text : List Char} (h : Spaced ds text)
    (hds : ∀ d ∈ ds, isKept d = true) : text.filter isKept = ds := by
  induction h with
  | nil => rfl
  | digit d _ ih =>
      rw [List.forall_mem_cons] at hds
      rw [List.filter_cons_of_pos hds.1, ih hds.2]
  | gap hgap _ ih =>
      rw [List.filter_cons_of_neg (by rw [isKept_eq_false_of_gap hgap]; exact Bool.false_ne_true)]
      exact ih hds

theorem Spaced.mem {ds text : List Char} (h : Spaced ds text) {c : Char} (hc : c ∈ text) :
    c ∈ ds ∨ IsGap c := by
  induction h with
  | nil => cases hc
  | digit d _ ih =>
      rcases List.mem_cons.1 hc with rfl | hc
      · exact .inl List.mem_cons_self
      · exact (ih hc).imp_left (List.mem_cons_of_mem d)
  | gap hgap _ ih =>
      rcases List.mem_cons.1 hc with rfl | hc
      · exact .inr hgap
      · exact ih hc

/-! ### The digits of a text -/

theorem filter_dropWhile_isBlank (text : List Char) :
    (text.dropWhile Text.isBlank).filter isKept = text.filter isKept := by
  induction text with
  | nil => rfl
  | cons c text ih =>
      by_cases hc : Text.isBlank c = true
      · have hkept : ¬ isKept c = true := by
          rw [isKept_eq_false_of_gap (.inl hc)]
          exact Bool.false_ne_true
        rw [List.dropWhile_cons_of_pos hc, List.filter_cons_of_neg hkept, ih]
      · rw [List.dropWhile_cons_of_neg hc]

theorem filter_trimBlanks (text : List Char) :
    (Text.trimBlanks text).filter isKept = text.filter isKept := by
  rw [Text.trimBlanks, List.filter_reverse, filter_dropWhile_isBlank, List.filter_reverse,
    List.reverse_reverse, filter_dropWhile_isBlank]

theorem mem_of_mem_trimBlanks {text : List Char} {c : Char} (h : c ∈ Text.trimBlanks text) :
    c ∈ text := by
  rw [Text.trimBlanks, List.mem_reverse] at h
  have hdropped := (List.dropWhile_sublist _).mem h
  rw [List.mem_reverse] at hdropped
  exact (List.dropWhile_sublist _).mem hdropped

theorem digits_of_forall_ne {text : List Char} (h : ∀ c ∈ text, c ≠ 'x') :
    digits text = text.filter isKept := by
  rw [← filter_trimBlanks]
  unfold digits
  dsimp only
  split
  · rename_i rest htrim
    have hx : 'x' ∈ Text.trimBlanks text := by
      rw [htrim]
      exact List.mem_cons_of_mem '0' List.mem_cons_self
    exact absurd rfl (h 'x' (mem_of_mem_trimBlanks hx))
  · rfl

theorem digits_zero_x (text : List Char) :
    digits ('0' :: 'x' :: text) = text.filter isKept := by
  have htrim : Text.trimBlanks ('0' :: 'x' :: text) =
      '0' :: 'x' :: (text.reverse.dropWhile Text.isBlank).reverse := by
    have hzero : ¬ Text.isBlank '0' = true := by decide
    have hstop : ['x', '0'].dropWhile Text.isBlank = ['x', '0'] := by decide
    rw [Text.trimBlanks, List.dropWhile_cons_of_neg hzero, List.reverse_cons, List.reverse_cons,
      List.append_assoc]
    show (List.dropWhile Text.isBlank (text.reverse ++ ['x', '0'])).reverse = _
    rw [List.dropWhile_append]
    split
    · rename_i hnil
      rw [hstop, List.isEmpty_iff.1 hnil]
      rfl
    · simp
  rw [digits, htrim]
  show ((text.reverse.dropWhile Text.isBlank).reverse).filter isKept = _
  rw [List.filter_reverse, filter_dropWhile_isBlank, List.filter_reverse, List.reverse_reverse]

/-! ### The digits of bytes -/

theorem value?_digit {n : Nat} (h : n < 16) : value? (digit n) = some n := by
  revert n
  decide

theorem isKept_digit {n : Nat} (h : n < 16) : isKept (digit n) = true ∧ digit n ≠ 'x' := by
  revert n
  decide

theorem exists_digit_of_mem_encode {bytes : List UInt8} {c : Char} (h : c ∈ encode bytes) :
    ∃ n, n < 16 ∧ c = digit n := by
  obtain ⟨b, -, hc⟩ := List.mem_flatMap.1 h
  have hb := b.toNat_lt
  rcases List.mem_cons.1 hc with rfl | hc
  · exact ⟨b.toNat / 16, by omega, rfl⟩
  · exact ⟨b.toNat % 16, by omega, List.mem_singleton.1 hc⟩

theorem encode_cons (b : UInt8) (bytes : List UInt8) :
    encode (b :: bytes) = digit (b.toNat / 16) :: digit (b.toNat % 16) :: encode bytes := rfl

theorem length_encode (bytes : List UInt8) : (encode bytes).length = 2 * bytes.length := by
  induction bytes with
  | nil => rfl
  | cons b bytes ih =>
      rw [encode_cons, List.length_cons, List.length_cons, ih, List.length_cons]
      omega

theorem take_drop_encode {bytes : List UInt8} {index : Nat} (h : index < bytes.length) :
    ((encode bytes).drop (2 * index)).take 2 = byteDigits bytes[index] := by
  induction bytes generalizing index with
  | nil => exact absurd h (Nat.not_lt_zero index)
  | cons b bytes ih =>
      cases index with
      | zero => rfl
      | succ index => exact ih (Nat.lt_of_succ_lt_succ h)

theorem decodeDigits_encode (index : Nat) (bytes : List UInt8) :
    decodeDigits index (encode bytes) = .ok bytes := by
  induction bytes generalizing index with
  | nil => rfl
  | cons b bytes ih =>
      have hb := b.toNat_lt
      have hbyte : UInt8.ofNat (16 * (b.toNat / 16) + b.toNat % 16) = b := by
        rw [Nat.div_add_mod, UInt8.ofNat_toNat]
      rw [encode_cons, decodeDigits, value?_digit (by omega), value?_digit (by omega), ih]
      show Except.ok (UInt8.ofNat (16 * (b.toNat / 16) + b.toNat % 16) :: bytes) = _
      rw [hbyte]

/-- Bytes are read back from their digits, spread out in any way, with or without a `0x`. -/
theorem decode_of_spaced {bytes : List UInt8} {start text : List Char}
    (hstart : start = [] ∨ start = ['0', 'x']) (h : Spaced (encode bytes) text) :
    decode (start ++ text) = .ok bytes := by
  have hkept : ∀ c ∈ encode bytes, isKept c = true := by
    intro c hc
    obtain ⟨n, hn, rfl⟩ := exists_digit_of_mem_encode hc
    exact (isKept_digit hn).1
  have hx : ∀ c ∈ text, c ≠ 'x' := by
    intro c hc
    rcases h.mem hc with hdigit | hgap
    · obtain ⟨n, hn, rfl⟩ := exists_digit_of_mem_encode hdigit
      exact (isKept_digit hn).2
    · rintro rfl
      exact absurd (isKept_eq_false_of_gap hgap) (by decide)
  have hdigits : digits (start ++ text) = encode bytes := by
    rcases hstart with rfl | rfl
    · rw [List.nil_append, digits_of_forall_ne hx, h.filter_eq hkept]
    · show digits ('0' :: 'x' :: text) = _
      rw [digits_zero_x, h.filter_eq hkept]
  have heven : ¬ (encode bytes).length % 2 = 1 := by
    rw [length_encode]
    omega
  rw [decode, hdigits]
  show (if (encode bytes).length % 2 = 1 then _ else decodeDigits 0 (encode bytes)) = _
  rw [if_neg heven, decodeDigits_encode]

end Offside.Hex
