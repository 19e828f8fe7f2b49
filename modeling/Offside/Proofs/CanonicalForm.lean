import Offside.Proofs.Operations
import Offside.Proofs.SavedLevels

/-! The one form that the bytes of a state have. Reading with care accepts exactly this form; writing
gives it back, and reading without care takes the same state from it. -/

namespace Offside

namespace Saved

/-- The bytes of some words, one after the other. -/
def pairBytes (pairs : List (UInt8 × UInt8)) : List UInt8 := pairs.flatMap fun p => [p.1, p.2]

/-- The words that pairs of bytes stand for, the low byte of each first. -/
def pairWords (pairs : List (UInt8 × UInt8)) : List UInt16 := pairs.map fun p => wordOf p.1 p.2

/-- The bytes say what is pending and which levels are open. A flag comes first and then the pending
width, which is zero where none is pending; then the number of levels, and two bytes for each. -/
inductive Canonical (pending : Option UInt16) (levels : List UInt16) : List UInt8 → Prop where
  | mk {flag low high depth : UInt8} {pairs : List (UInt8 × UInt8)}
      (hpending : flag = 0 ∧ wordOf low high = 0 ∧ pending = none ∨
        flag = 1 ∧ pending = some (wordOf low high))
      (hdepth : 1 ≤ depth.toNat ∧ depth.toNat ≤ 100) (hlength : pairs.length = depth.toNat)
      (hlevels : levels = pairWords pairs) (hwellFormed : WellFormed levels) :
      Canonical pending levels (flag :: low :: high :: depth :: pairBytes pairs)

@[simp] theorem pairBytes_cons (p : UInt8 × UInt8) (pairs : List (UInt8 × UInt8)) :
    pairBytes (p :: pairs) = p.1 :: p.2 :: pairBytes pairs := rfl

@[simp] theorem pairWords_cons (p : UInt8 × UInt8) (pairs : List (UInt8 × UInt8)) :
    pairWords (p :: pairs) = wordOf p.1 p.2 :: pairWords pairs := rfl

@[simp] theorem length_pairWords (pairs : List (UInt8 × UInt8)) :
    (pairWords pairs).length = pairs.length := List.length_map _

theorem toNat_wordOf (low high : UInt8) :
    (wordOf low high).toNat = low.toNat + 256 * high.toNat := by
  have hlow := low.toNat_lt
  have hhigh := high.toNat_lt
  rw [wordOf, UInt16.toNat_ofNat']
  omega

theorem wordBytes_wordOf (low high : UInt8) : wordBytes (wordOf low high) = [low, high] := by
  have hlow := low.toNat_lt
  have hlow' : (wordOf low high).toUInt8 = low := by
    apply UInt8.toNat_inj.1
    rw [UInt16.toNat_toUInt8, toNat_wordOf]
    omega
  have hhigh' : (wordOf low high).toNat / 256 = high.toNat := by
    rw [toNat_wordOf]
    omega
  rw [wordBytes, hlow', hhigh', UInt8.ofNat_toNat]

theorem flatMap_wordBytes_pairWords (pairs : List (UInt8 × UInt8)) :
    (pairWords pairs).flatMap wordBytes = pairBytes pairs := by
  induction pairs with
  | nil => rfl
  | cons p pairs ih =>
      rw [pairWords_cons, List.flatMap_cons, ih, wordBytes_wordOf, pairBytes_cons]
      rfl

theorem length_pairBytes (pairs : List (UInt8 × UInt8)) :
    (pairBytes pairs).length = 2 * pairs.length := by
  rw [← flatMap_wordBytes_pairWords, length_flatMap_wordBytes, length_pairWords]

end Saved

open Saved

/-- Well-formed widths are the widths of levels, and none of them is dropped. -/
theorem Levels.toList_ofList {widths : List UInt16} (h : WellFormed widths) :
    (ofList widths).toList = widths := by
  obtain ⟨hbase, hpairwise⟩ := h
  cases widths with
  | nil => cases hbase
  | cons w ws =>
      obtain rfl : w = 0 := Option.some.inj hbase
      have hdescending : (ws.reverse ++ [0]).Pairwise (· > ·) := by
        rw [← List.reverse_cons, List.pairwise_reverse]
        exact hpairwise
      have htoList : (⟨ws.reverse, hdescending⟩ : Levels).toList = 0 :: ws := by
        rw [toList, List.reverse_reverse]
      rw [← htoList, ofList_toList]

theorem Levels.toList_ofList_eq_iff {widths : List UInt16} :
    (ofList widths).toList = widths ↔ WellFormed widths := by
  refine ⟨fun h => ?_, toList_ofList⟩
  rw [← h]
  exact wellFormed_toList _

theorem Levels.eq_of_toList_eq {l l' : Levels} (h : l.toList = l'.toList) : l = l' := by
  rw [← l.ofList_toList, h, l'.ofList_toList]

namespace Saved

/-! ### Which bytes are read with care -/

theorem decodeOpened_eq_ok_iff {l l' : Levels} {n : Nat} {bytes : List UInt8} :
    decodeOpened l n bytes = .ok l' ↔
      ∃ pairs, pairs.length = n ∧ bytes = pairBytes pairs ∧
        l'.toList = l.toList ++ pairWords pairs := by
  induction n generalizing l bytes with
  | zero =>
      constructor
      · intro h
        cases bytes with
        | nil =>
            obtain rfl := Except.ok.inj h
            exact ⟨[], rfl, rfl, (List.append_nil _).symm⟩
        | cons b bytes => cases h
      · rintro ⟨pairs, hlength, rfl, hlevels⟩
        obtain rfl := List.length_eq_zero_iff.1 hlength
        rw [Levels.eq_of_toList_eq (hlevels.trans (List.append_nil _))]
        rfl
  | succ n ih =>
      constructor
      · intro h
        match bytes with
        | [] => cases h
        | [_] => cases h
        | low :: high :: rest =>
          rw [decodeOpened] at h
          split at h
          · rename_i hwider
            obtain ⟨pairs, hlength, rfl, hlevels⟩ := ih.1 h
            refine ⟨(low, high) :: pairs, congrArg (· + 1) hlength, rfl, ?_⟩
            rw [hlevels, Levels.toList_push hwider, List.append_assoc]
            rfl
          · cases h
      · rintro ⟨pairs, hlength, rfl, hlevels⟩
        cases pairs with
        | nil => cases hlength
        | cons p pairs =>
            have hpairwise := l'.pairwise_toList
            rw [hlevels, List.pairwise_append] at hpairwise
            have hwider : l.top < wordOf p.1 p.2 :=
              hpairwise.2.2 _ l.top_mem_toList _ List.mem_cons_self
            rw [pairBytes_cons, decodeOpened, if_pos hwider, ih]
            refine ⟨pairs, Nat.succ.inj hlength, rfl, ?_⟩
            rw [hlevels, Levels.toList_push hwider, List.append_assoc]
            rfl

theorem of_decodeLevels_cons {l : Levels} {depth : UInt8} {bytes : List UInt8}
    (h : decodeLevels (depth :: bytes) = .ok l) :
    depth.toNat ≤ maxDepth ∧ depth ≠ 0 ∧ ∃ low high rest, bytes = low :: high :: rest ∧
      wordOf low high = 0 ∧ decodeOpened .base (depth.toNat - 1) rest = .ok l := by
  rw [decodeLevels.eq_def] at h
  dsimp only at h
  split at h
  · cases h
  rename_i hmax
  split at h
  · cases h
  rename_i hzero
  split at h
  · rename_i low high rest
    split at h
    · rename_i hbase
      exact ⟨Nat.not_lt.1 hmax, hzero, low, high, rest, rfl, hbase, h⟩
    · cases h
  · cases h

theorem decodeLevels_eq_ok_iff {l : Levels} {bytes : List UInt8} :
    decodeLevels bytes = .ok l ↔
      ∃ depth pairs, bytes = depth :: pairBytes pairs ∧ (1 ≤ depth.toNat ∧ depth.toNat ≤ 100) ∧
        pairs.length = depth.toNat ∧ l.toList = pairWords pairs := by
  constructor
  · intro h
    cases bytes with
    | nil => cases h
    | cons depth rest =>
        obtain ⟨hmax, hzero, low, high, rest, rfl, hbase, hopened⟩ := of_decodeLevels_cons h
        obtain ⟨pairs, hlength, rfl, hlevels⟩ := decodeOpened_eq_ok_iff.1 hopened
        have hpos : 1 ≤ depth.toNat := by
          rw [Nat.one_le_iff_ne_zero, ← UInt8.toNat_zero, Ne, UInt8.toNat_inj]
          exact hzero
        refine ⟨depth, (low, high) :: pairs, rfl, ⟨hpos, hmax⟩, ?_, ?_⟩
        · rw [List.length_cons, hlength]
          omega
        · rw [hlevels, pairWords_cons, hbase]
          rfl
  · rintro ⟨depth, pairs, rfl, ⟨hpos, hmax⟩, hlength, hlevels⟩
    cases pairs with
    | nil =>
        rw [List.length_nil] at hlength
        omega
    | cons p pairs =>
        have hbase : wordOf p.1 p.2 = 0 := (List.cons_eq_cons.1 hlevels).1.symm
        have hzero : depth ≠ 0 := by
          rintro rfl
          exact absurd hpos (by decide)
        have hbound : ¬maxDepth < depth.toNat := Nat.not_lt.2 hmax
        rw [pairBytes_cons, decodeLevels, if_neg hbound, if_neg hzero, if_pos hbase,
          decodeOpened_eq_ok_iff]
        refine ⟨pairs, ?_, rfl, ?_⟩
        · rw [List.length_cons] at hlength
          omega
        · rw [hlevels, pairWords_cons, hbase]
          rfl

theorem decodePending_eq_ok_iff {flag : UInt8} {width : UInt16} {pending : Option UInt16} :
    decodePending flag width = .ok pending ↔
      flag = 0 ∧ width = 0 ∧ pending = none ∨ flag = 1 ∧ pending = some width := by
  rw [decodePending]
  by_cases hzero : flag = 0
  · subst hzero
    by_cases hwidth : width = 0
    · simp [hwidth, eq_comm]
    · simp [hwidth]
  · by_cases hone : flag = 1
    · subst hone
      simp [eq_comm]
    · simp [hzero, hone]

end Saved

namespace State

theorem decode_eq_ok_iff {s : State} {bytes : List UInt8} :
    decode bytes = .ok s ↔
      bytes = [] ∧ s = .fresh ∨ Canonical s.pending s.levels.toList bytes := by
  constructor
  · intro h
    match bytes with
    | [] => exact .inl ⟨rfl, (Except.ok.inj h).symm⟩
    | [_] => cases h
    | [_, _] => cases h
    | flag :: low :: high :: rest =>
      rw [decode] at h
      cases hpending : decodePending flag (wordOf low high) with
      | error d =>
          rw [hpending] at h
          cases h
      | ok pending =>
          cases hlevels : decodeLevels rest with
          | error d =>
              rw [hpending, hlevels] at h
              cases h
          | ok levels =>
              rw [hpending, hlevels] at h
              obtain rfl := Except.ok.inj h
              obtain ⟨depth, pairs, rfl, hdepth, hlength, htoList⟩ := decodeLevels_eq_ok_iff.1 hlevels
              exact .inr (.mk (decodePending_eq_ok_iff.1 hpending) hdepth hlength htoList
                levels.wellFormed_toList)
  · rintro (⟨rfl, rfl⟩ | h)
    · rfl
    · obtain ⟨levels, pending⟩ := s
      obtain ⟨hpending, hdepth, hlength, hlevels, -⟩ := h
      rw [decode, decodePending_eq_ok_iff.2 hpending,
        decodeLevels_eq_ok_iff.2 ⟨_, _, rfl, hdepth, hlength, hlevels⟩]
      rfl

end State

/-! ### The canonical form is what is written -/

namespace Saved.Canonical

variable {pending : Option UInt16} {levels : List UInt16} {bytes : List UInt8} {s : State}

theorem length_eq (h : Canonical pending levels bytes) :
    1 ≤ levels.length ∧ levels.length ≤ 100 ∧ bytes.length = 4 + 2 * levels.length := by
  cases h with
  | @mk _ _ _ depth pairs _ hdepth hlength hlevels _ =>
      rw [hlevels, length_pairWords, hlength]
      refine ⟨hdepth.1, hdepth.2, ?_⟩
      rw [List.length_cons, List.length_cons, List.length_cons, List.length_cons,
        length_pairBytes, hlength]
      omega

theorem eq_bytesOf (h : Canonical pending levels bytes) : bytes = bytesOf pending levels := by
  cases h with
  | @mk flag low high depth pairs hpending _ hlength hlevels _ =>
      have hdepth : UInt8.ofNat (pairWords pairs).length = depth := by
        rw [length_pairWords, hlength, UInt8.ofNat_toNat]
      rw [bytesOf, hlevels, hdepth, flatMap_wordBytes_pairWords]
      rcases hpending with ⟨rfl, hwidth, rfl⟩ | ⟨rfl, rfl⟩
      · have hbytes := wordBytes_wordOf low high
        rw [hwidth] at hbytes
        rw [Option.getD_none, hbytes]
        rfl
      · rw [Option.getD_some, wordBytes_wordOf]
        rfl

theorem exists_state (h : Canonical pending levels bytes) :
    ∃ s : State, s.pending = pending ∧ s.levels.toList = levels := by
  cases h with
  | mk _ _ _ _ hwellFormed => exact ⟨⟨.ofList levels, pending⟩, rfl, Levels.toList_ofList hwellFormed⟩

theorem recover_eq (h : Canonical s.pending s.levels.toList bytes) : State.recover bytes = s := by
  have hlength := h.length_eq.2.1
  rw [h.eq_bytesOf, recover_bytesOf s.pending (by omega), Levels.ofList_toList]

theorem save_eq (h : Canonical s.pending s.levels.toList bytes) {capacity : Nat}
    (hroom : bytes.length ≤ capacity) : s.save capacity = bytes := by
  obtain ⟨-, hmax, hlength⟩ := h.length_eq
  rw [Levels.length_toList] at hmax hlength
  have hkept : keptDepth capacity s.levels.depth = s.levels.depth := by
    simp only [keptDepth, headerSize, maxDepth]
    omega
  have hlevels : keptLevels s.levels s.levels.depth = s.levels.toList := by
    rw [Levels.depth, keptLevels, Levels.keep_of_depth_le (Nat.le_refl _)]
  rw [State.save, if_neg (by simp only [headerSize]; omega), hkept, hlevels, h.eq_bytesOf]

theorem saveInto_eq (h : Canonical s.pending s.levels.toList bytes) {buffer : List UInt8}
    (hroom : bytes.length ≤ buffer.length) :
    s.saveInto buffer = (bytes.length, bytes ++ buffer.drop bytes.length) := by
  rw [State.saveInto_eq, h.save_eq hroom]

end Saved.Canonical

/-- **Reading with care accepts exactly the canonical form**, and no bytes at all for the fresh
state. A state that is read is written as the same bytes, and is what reading without care makes of
them. -/
theorem decode_iff_canonical (bytes : List UInt8) :
    (∀ pending levels,
      (∃ s, State.decode bytes = .ok s ∧ s.pending = pending ∧ s.levels.toList = levels) ↔
        bytes = [] ∧ pending = none ∧ levels = [0] ∨ Canonical pending levels bytes) ∧
      ∀ s, State.decode bytes = .ok s → bytes ≠ [] →
        (∀ buffer : List UInt8, bytes.length ≤ buffer.length →
          s.saveInto buffer = (bytes.length, bytes ++ buffer.drop bytes.length)) ∧
        State.recover bytes = s ∧
        ∀ others, State.decode others = .ok s → others ≠ [] → others = bytes := by
  refine ⟨fun pending levels => ⟨?_, ?_⟩, fun s hdecode hne => ?_⟩
  · rintro ⟨s, hdecode, rfl, rfl⟩
    rcases State.decode_eq_ok_iff.1 hdecode with ⟨hempty, rfl⟩ | h
    · exact .inl ⟨hempty, rfl, rfl⟩
    · exact .inr h
  · rintro (⟨rfl, rfl, rfl⟩ | h)
    · exact ⟨.fresh, rfl, rfl, rfl⟩
    · obtain ⟨s, rfl, rfl⟩ := h.exists_state
      exact ⟨s, State.decode_eq_ok_iff.2 (.inr h), rfl, rfl⟩
  · have hcanonical {others : List UInt8} (hdecode : State.decode others = .ok s)
        (hne : others ≠ []) : Canonical s.pending s.levels.toList others :=
      (State.decode_eq_ok_iff.1 hdecode).resolve_left fun h => hne h.1
    have h := hcanonical hdecode hne
    refine ⟨fun buffer hroom => h.saveInto_eq hroom, h.recover_eq, fun others hdecode' hne' => ?_⟩
    rw [(hcanonical hdecode' hne').eq_bytesOf, h.eq_bytesOf]

/-- The bytes of two levels, the outer of which is the base, with a width pending. -/
theorem decode_iff_canonical_two_levels :
    let bytes : List UInt8 := [1, 3, 0, 2, 0, 0, 4, 1]
    let s : State := ⟨.ofList [0, 260], some 3⟩
    State.decode bytes = .ok s ∧ Canonical (some 3) [0, 260] bytes ∧
      s.saveInto (List.replicate 9 7) = (8, bytes ++ [7]) ∧ State.recover bytes = s := by
  intro bytes s
  have hdecode : State.decode bytes = .ok s := by rfl
  obtain ⟨hiff, hwritten⟩ := decode_iff_canonical bytes
  obtain ⟨hsave, hrecover, -⟩ := hwritten s hdecode (by decide)
  have hcanonical := ((hiff (some 3) [0, 260]).1 ⟨s, hdecode, rfl, by decide⟩).resolve_left
    fun h => absurd h.1 (by decide)
  exact ⟨hdecode, hcanonical, hsave _ (by decide), hrecover⟩

end Offside
