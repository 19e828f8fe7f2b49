import Offside.Proofs.DecodeSaved

/-! Bytes that are read without care and written again. What comes out is of the canonical form, so
that reading with care accepts it, and it stays as it is when it is read and written once more. -/

namespace Offside

open Saved

theorem Levels.depth_keep_le (l : Levels) (n : Nat) : (l.keep n).depth ≤ n + 1 := by
  rw [depth_keep]
  omega

/-- The levels that are written where nothing but the greatest depth limits them. -/
theorem Levels.toList_keep_99 (l : Levels) :
    (l.keep 99).toList =
      if l.depth ≤ 100 then l.toList else 0 :: l.toList.drop (l.depth - 99) := by
  split
  · rename_i hfits
    rw [keep_of_depth_le hfits]
  · rename_i hdeep
    exact toList_keep (by omega)

namespace State

/-- With nothing but the greatest depth to limit it, the base and the innermost 99 of the other
levels are written. -/
theorem toBytes_eq (s : State) : s.toBytes = bytesOf s.pending (s.levels.keep 99).toList := by
  have hdepth : 0 < s.levels.depth := Nat.succ_pos _
  obtain ⟨n, hn⟩ : ∃ n, min s.levels.depth maxDepth = n + 1 := by
    refine Nat.exists_eq_add_one.2 ?_
    rw [maxDepth]
    omega
  have hroom : ¬ min (sizeOfDepth s.levels.depth) bufferSize < headerSize := by
    simp only [sizeOfDepth, bufferSize, headerSize]
    omega
  have hkept : keptDepth (min (sizeOfDepth s.levels.depth) bufferSize) s.levels.depth = n + 1 := by
    simp only [keptDepth, sizeOfDepth, bufferSize, headerSize, maxDepth] at hn ⊢
    omega
  have hlevels : s.levels.keep n = s.levels.keep 99 := by
    rw [maxDepth] at hn
    by_cases hdeep : s.levels.depth ≤ 100
    · rw [Levels.keep_of_depth_le (by omega), Levels.keep_of_depth_le hdeep]
    · have hmost : n = 99 := by omega
      rw [hmost]
  unfold toBytes save
  rw [if_neg hroom, hkept, keptLevels, hlevels]

theorem decode_toBytes (s : State) : decode s.toBytes = .ok ⟨s.levels.keep 99, s.pending⟩ := by
  rw [toBytes_eq, decode_eq_ok_iff]
  exact .inr (canonical_bytesOf s.pending (s.levels.depth_keep_le 99))

theorem recover_toBytes (s : State) : recover s.toBytes = ⟨s.levels.keep 99, s.pending⟩ := by
  have hcanonical := canonical_bytesOf s.pending (s.levels.depth_keep_le 99)
  rw [toBytes_eq]
  exact hcanonical.recover_eq (s := ⟨s.levels.keep 99, s.pending⟩)

end State

/-- What is written again for the state that some bytes are taken for. -/
def Saved.canonicalize (bytes : List UInt8) : List UInt8 := (State.recover bytes).toBytes

/-- **Any bytes are put into the canonical form, and only once.** A reader with care takes what is
written again for them for the state that was recovered, or for the base and the innermost 99 of its
levels. -/
theorem decode_canonicalize (bytes : List UInt8) :
    canonicalize (canonicalize bytes) = canonicalize bytes ∧
      ∃ t, State.decode (canonicalize bytes) = .ok t ∧ State.recover (canonicalize bytes) = t ∧
        let s := State.recover bytes
        (s.levels.depth ≤ 100 → t = s) ∧
          (100 < s.levels.depth → t.pending = s.pending ∧
            t.levels.toList = 0 :: s.levels.toList.drop (s.levels.depth - 99)) := by
  let s := State.recover bytes
  have hrecover : State.recover (canonicalize bytes) = ⟨s.levels.keep 99, s.pending⟩ :=
    s.recover_toBytes
  refine ⟨?_, _, s.decode_toBytes, hrecover, fun hfits => ?_, fun hdeep => ⟨rfl, ?_⟩⟩
  · calc canonicalize (canonicalize bytes)
      _ = bytesOf s.pending ((s.levels.keep 99).keep 99).toList := by
          rw [canonicalize, hrecover, State.toBytes_eq]
      _ = bytesOf s.pending (s.levels.keep 99).toList := by
          rw [Levels.keep_keep, Nat.min_self]
      _ = canonicalize bytes := s.toBytes_eq.symm
  · rw [Levels.keep_of_depth_le hfits]
  · rw [Levels.toList_keep_99, if_neg (Nat.not_le.2 hdeep)]

/-- A flag that is neither zero nor one, no base, a level that is too narrow, half a level and no
more where another one is announced. -/
example : canonicalize [7, 2, 0, 5, 4, 0, 3, 0, 9, 0, 1] = [1, 2, 0, 3, 0, 0, 4, 0, 9, 0] := by decide

end Offside
