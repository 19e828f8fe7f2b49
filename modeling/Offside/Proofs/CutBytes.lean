import Offside.Proofs.Normalization

/-! The bytes of a state that are cut off somewhere. What is left of them is read without care as the
front of the state, and reading with care refuses it. -/

namespace Offside

open Saved

namespace Saved

variable {pending pending' : Option UInt16} {levels levels' : List UInt16} {bytes bytes' : List UInt8}

/-- Bytes of the canonical form say how long they are, so that none of them are the front of
others. -/
theorem Canonical.eq_of_prefix (h : Canonical pending levels bytes)
    (h' : Canonical pending' levels' bytes') (hfront : bytes <+: bytes') : bytes = bytes' := by
  refine hfront.eq_of_length ?_
  cases h with
  | @mk flag low high depth pairs _ _ hlength _ _ =>
      cases h' with
      | @mk flag' low' high' depth' pairs' _ _ hlength' _ _ =>
          obtain ⟨rest, hrest⟩ := hfront
          simp only [List.cons_append, List.cons.injEq] at hrest
          obtain ⟨-, -, -, rfl, -⟩ := hrest
          have hpairs : pairs.length = pairs'.length := hlength.trans hlength'.symm
          simp only [List.length_cons, length_pairBytes, hpairs]

end Saved

/-- Levels that are read in part are the levels of that part, and the base. -/
theorem Levels.toList_ofList_take (l : Levels) (n : Nat) :
    (ofList (l.toList.take n)).toList = l.toList.take (max 1 n) := by
  cases n with
  | zero => rfl
  | succ n =>
      rw [Nat.max_eq_right (Nat.succ_pos n)]
      exact toList_ofList ⟨rfl, l.pairwise_toList.sublist (List.take_sublist _ _)⟩

namespace State

/-- **Bytes that are cut off lose what is behind the cut, and nothing else.** The pending width and
each level come back if all of their bytes are there, and the base in any case. Reading with care
accepts none of the bytes or all. -/
theorem cut_loses_tail (s : State) (k : Nat) (hdepth : s.levels.depth ≤ 100)
    (hk : k ≤ s.toBytes.length) :
    let cut := s.toBytes.take k
    (recover cut).pending = (if 3 ≤ k then s.pending else none) ∧
      (recover cut).levels.toList = s.levels.toList.take (max 1 ((k - 4) / 2)) ∧
      (k < 6 → (recover cut).levels.toList = [0]) ∧
      ((∃ t, decode cut = .ok t) ↔ k = 0 ∨ k = s.toBytes.length) := by
  intro cut
  have hbytes : s.toBytes = bytesOf s.pending s.levels.toList := by
    rw [toBytes_eq, Levels.keep_of_depth_le hdepth]
  have hlength : s.levels.toList.length < 256 := by
    rw [Levels.length_toList]
    exact Nat.lt_of_le_of_lt hdepth (by decide)
  have hrecover : recover cut =
      ⟨.ofList (s.levels.toList.take ((k - 4) / 2)), if 3 ≤ k then s.pending else none⟩ := by
    rw [← recover_take_bytesOf s.pending hlength k, ← hbytes]
  have hlevels : (recover cut).levels.toList = s.levels.toList.take (max 1 ((k - 4) / 2)) := by
    rw [hrecover]
    exact s.levels.toList_ofList_take _
  refine ⟨congrArg State.pending hrecover, hlevels, fun hsmall => ?_, ?_, ?_⟩
  · have hnone : max 1 ((k - 4) / 2) = 1 := by omega
    rw [hlevels, hnone]
    rfl
  · rintro ⟨t, ht⟩
    rcases decode_eq_ok_iff.1 ht with ⟨hempty, -⟩ | hcanonical
    · rcases List.take_eq_nil_iff.1 hempty with hzero | hnil
      · exact .inl hzero
      · rw [hnil, List.length_nil] at hk
        exact .inl (Nat.le_zero.1 hk)
    · have hwhole : Canonical s.pending s.levels.toList s.toBytes :=
        hbytes ▸ canonical_bytesOf s.pending hdepth
      have hsame := hcanonical.eq_of_prefix hwhole (List.take_prefix k _)
      right
      rw [← hsame, List.length_take_of_le hk]
  · rintro (rfl | rfl)
    · exact ⟨.fresh, rfl⟩
    · have hall : cut = s.toBytes := List.take_length
      rw [hall]
      exact ⟨_, decode_toBytes s⟩

/-- Three levels and a pending width. Nine of the ten bytes give two levels; two of them are half of
the width and give nothing. -/
theorem cut_loses_tail_of_three_levels :
    let s := ofParts [0, 2, 260] (some 3)
    s.toBytes = [1, 3, 0, 3, 0, 0, 2, 0, 4, 1] ∧
      (recover (s.toBytes.take 9)).pending = some 3 ∧
      (recover (s.toBytes.take 9)).levels.toList = [0, 2] ∧
      ¬(∃ t, decode (s.toBytes.take 9) = .ok t) ∧
      (recover (s.toBytes.take 2)).pending = none ∧
      (recover (s.toBytes.take 2)).levels.toList = [0] := by
  intro s
  have hbytes : s.toBytes = [1, 3, 0, 3, 0, 0, 2, 0, 4, 1] := by decide
  have hlength : s.toBytes.length = 10 := congrArg List.length hbytes
  have hdepth : s.levels.depth ≤ 100 := by decide
  obtain ⟨hpending, hlevels, -, hdecode⟩ := cut_loses_tail s 9 hdepth (by rw [hlength]; decide)
  obtain ⟨hpending', -, hbase, -⟩ := cut_loses_tail s 2 hdepth (by rw [hlength]; decide)
  refine ⟨hbytes, hpending, hlevels.trans (by decide), ?_, hpending', hbase (by decide)⟩
  rw [hdecode, hlength]
  decide

end State

end Offside
