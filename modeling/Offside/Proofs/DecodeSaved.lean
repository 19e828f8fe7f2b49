import Offside.Proofs.CanonicalForm

/-! Reading with care what has been written. All that is ever written is accepted, and is read as it
is without care, but for one case: where the header fits and no level does, the base is not written
either, and reading with care misses it. -/

namespace Offside

open Saved

namespace Saved

/-- The bytes of a pending width and of at most a hundred levels are of the canonical form. -/
theorem canonical_bytesOf (pending : Option UInt16) {l : Levels} (h : l.depth ≤ 100) :
    Canonical pending l.toList (bytesOf pending l.toList) := by
  obtain ⟨pairs, hpairs⟩ : ∃ pairs, l.toList = pairWords pairs := by
    refine ⟨l.toList.map fun w => (w.toUInt8, .ofNat (w.toNat / 256)), ?_⟩
    rw [pairWords, List.map_map]
    exact (List.map_id'' (fun w => wordOf_wordBytes w) l.toList).symm
  have hlength : pairs.length = l.depth := by
    rw [← length_pairWords, ← hpairs, Levels.length_toList]
  have hdepth : (UInt8.ofNat l.toList.length).toNat = l.depth := by
    rw [Levels.length_toList, UInt8.toNat_ofNat']
    exact Nat.mod_eq_of_lt (Nat.lt_of_le_of_lt h (by decide))
  have hbytes : l.toList.flatMap wordBytes = pairBytes pairs := by
    rw [hpairs, flatMap_wordBytes_pairWords]
  have hpos : 1 ≤ l.depth := Nat.succ_pos _
  rw [bytesOf, wordBytes, hbytes]
  refine .mk ?_ ?_ ?_ hpairs l.wellFormed_toList
  · rw [wordOf_wordBytes]
    cases pending with
    | none => exact .inl ⟨rfl, rfl, rfl⟩
    | some w => exact .inr ⟨rfl, rfl⟩
  · rw [hdepth]
    exact ⟨hpos, h⟩
  · rw [hdepth, hlength]

end Saved

namespace State

variable {capacity : Nat}

/-- With room for the base, and with none for the header, reading with care accepts what is
written. -/
theorem decode_save (h : capacity < headerSize ∨ headerSize + 2 ≤ capacity) (s : State) :
    decode (s.save capacity) = .ok (recover (s.save capacity)) := by
  rcases h with h | h
  · rw [save_of_lt h]
    rfl
  · have hheader : headerSize ≤ capacity := Nat.le_trans (Nat.le_add_right _ 2) h
    obtain ⟨n, hn⟩ : ∃ n, keptDepth capacity s.levels.depth = n + 1 := by
      refine Nat.exists_eq_add_one.2 ?_
      have hdepth : 0 < s.levels.depth := Nat.succ_pos _
      simp only [keptDepth, maxDepth]
      omega
    have hmax := (keptDepth_le capacity s.levels.depth).2
    have hkept : (s.levels.keep n).depth ≤ 100 := by
      rw [Levels.depth_keep]
      rw [hn, maxDepth] at hmax
      omega
    rw [recover_save_of_le hheader, hn, save, if_neg (Nat.not_lt.2 hheader), hn, keptLevels,
      Nat.add_sub_cancel, decode_eq_ok_iff]
    exact .inr (canonical_bytesOf s.pending hkept)

theorem decode_save_of_bare (hle : headerSize ≤ capacity) (hlt : capacity < headerSize + 2)
    (s : State) : decode (s.save capacity) = .error .emptyStack := by
  have hzero : keptDepth capacity s.levels.depth = 0 := by
    rw [keptDepth, Nat.div_eq_of_lt (by omega), Nat.min_zero]
  rw [save, if_neg (Nat.not_lt.2 hle), hzero, keptLevels, bytesOf, wordBytes]
  cases s.pending with
  | none => rfl
  | some w =>
      rw [Option.getD_some, Option.isSome_some, if_pos rfl]
      simp only [List.cons_append, List.nil_append, List.length_nil, List.flatMap_nil, decode,
        wordOf_wordBytes]
      rfl

/-- **Reading with care accepts what is written, unless the header fits and no level does.** Into
four or five bytes the header is written with no level, not even the base, and that is refused. -/
theorem decode_written_iff (s : State) (buffer : List UInt8) :
    let written := (s.saveInto buffer).2.take (s.saveInto buffer).1
    (decode written = .ok (recover written) ↔ buffer.length ≠ 4 ∧ buffer.length ≠ 5) ∧
      (buffer.length = 4 ∨ buffer.length = 5 → decode written = .error .emptyStack) := by
  intro written
  have hwritten : written = s.save buffer.length := take_saveInto buffer s
  rw [hwritten]
  have hbare (h : buffer.length = 4 ∨ buffer.length = 5) :
      decode (s.save buffer.length) = .error .emptyStack :=
    decode_save_of_bare (by rw [headerSize]; omega) (by rw [headerSize]; omega) s
  refine ⟨⟨fun hok => ?_, fun hne => decode_save (by rw [headerSize]; omega) s⟩, hbare⟩
  rw [← not_or]
  intro h
  rw [hbare h] at hok
  cases hok

/-- A state of two levels, written into four bytes: the pending width is there and the base is not.
Reading without care puts the base back, and reading with care misses it. -/
theorem decode_written_four_bytes :
    let s := ofParts [0, 4] (some 7)
    let buffer : List UInt8 := List.replicate 4 170
    let written := (s.saveInto buffer).2.take (s.saveInto buffer).1
    written = [1, 7, 0, 0] ∧ recover written = ⟨.base, some 7⟩ ∧
      decode written = .error .emptyStack ∧ decode written ≠ .ok (recover written) := by
  intro s buffer written
  have hwritten : written = [1, 7, 0, 0] := by decide
  rw [hwritten]
  exact ⟨rfl, rfl, rfl, nofun⟩

end State

end Offside
