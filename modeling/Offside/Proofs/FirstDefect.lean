import Offside.Proofs.Refusal

/-! The defect that is named where bytes are refused, held against the fields of the bytes. It is
always one of the field at its offset. It is the first one of all, but for one case: bytes that end
before the pending width are called truncated even where their flag is no flag. -/

namespace Offside

open Saved

theorem Levels.getElem?_toList_top (l : Levels) : l.toList[l.depth - 1]? = some l.top := by
  rw [← length_toList, ← List.getLast?_eq_getElem?]
  obtain ⟨opened, descending⟩ := l
  cases opened with
  | nil => rfl
  | cons a as =>
      rw [toList, List.reverse_cons]
      exact List.getLast?_concat (l := 0 :: as.reverse)

namespace Saved

/-- The fields of a saved state, in their order. -/
inductive Slot where
  | flag
  | width
  | depth
  | level (index : Nat)

/-- The word at an offset, where all of it is there. -/
def wordAt? (bytes : List UInt8) (offset : Nat) : Option UInt16 := (words (bytes.drop offset)).head?

namespace Slot

def name : Slot → String
  | flag => "pending flag"
  | width => "pending width"
  | depth => "stack depth"
  | level _ => "indent level"

def start : Slot → Nat
  | flag => 0
  | width => 1
  | depth => 3
  | level index => 4 + 2 * index

/-- The offset behind the field. -/
def stop : Slot → Nat
  | flag => 1
  | width => 3
  | depth => 4
  | level index => 4 + 2 * index + 2

/-- The levels are those that the depth announces; the other fields are always due. -/
def IsDue (bytes : List UInt8) : Slot → Prop
  | level index => ∃ depth, bytes[3]? = some depth ∧ index < depth.toNat
  | _ => True

/-- A field that is there keeps its rule. -/
def Holds (bytes : List UInt8) : Slot → Prop
  | flag => bytes[0]? = some 0 ∨ bytes[0]? = some 1
  | width => wordAt? bytes 1 = some 0 ∨ bytes[0]? = some 1
  | depth => ∃ depth, bytes[3]? = some depth ∧ 1 ≤ depth.toNat ∧ depth.toNat ≤ 100
  | level 0 => wordAt? bytes 4 = some 0
  | level (index + 1) =>
    ∃ previous level, wordAt? bytes (4 + 2 * index) = some previous ∧
      wordAt? bytes (4 + 2 * (index + 1)) = some level ∧ previous < level

/-- A defect gives what stands in a field. -/
def Gives (bytes : List UInt8) : Slot → Defect → Prop
  | flag, .invalidPendingFlag found => bytes[0]? = some found
  | width, .strayPendingWidth found => wordAt? bytes 1 = some found
  | depth, .depthOutOfRange found => bytes[3]? = some found ∧ 100 < found.toNat
  | depth, .emptyStack => bytes[3]? = some 0
  | level 0, .nonZeroBase found => wordAt? bytes 4 = some found
  | level (index + 1), .notIncreasing index' found previous =>
    index' = index + 1 ∧ wordAt? bytes (4 + 2 * (index + 1)) = some found ∧
      wordAt? bytes (4 + 2 * index) = some previous
  | _, _ => False

end Slot

/-- The field that starts at the offset of a defect is the one that the defect is about, or the offset
is that of the first byte behind the levels. -/
inductive IsFound (bytes : List UInt8) (d : Defect) : Prop where
  | broken (f : Slot) (hdue : f.IsDue bytes) (hoffset : f.start = d.byteOffset bytes.length)
      (hthere : f.stop ≤ bytes.length) (hbroken : ¬f.Holds bytes) (hgives : f.Gives bytes d)
  | missing (f : Slot) (hdue : f.IsDue bytes) (hdefect : d = .truncated f.name f.start)
      (hreached : f.start ≤ bytes.length) (hmissing : bytes.length < f.stop)
  | trailing (depth : UInt8) (count : Nat) (hdepth : bytes[3]? = some depth)
      (hdefect : d = .trailingBytes count) (hoffset : d.byteOffset bytes.length = 4 + 2 * depth.toNat)
      (hcount : 0 < count) (hlength : bytes.length = 4 + 2 * depth.toNat + count)

variable {flag low high depth : UInt8} {rest : List UInt8}

/-! ### The fields of bytes that are given part by part -/

theorem words_drop (bytes : List UInt8) (n : Nat) :
    words (bytes.drop (2 * n)) = (words bytes).drop n := by
  induction n generalizing bytes with
  | zero => rfl
  | succ n ih =>
      match bytes with
      | [] => rw [List.drop_nil]; exact List.drop_nil.symm
      | [b] => rw [Nat.mul_succ, List.drop_succ_cons, List.drop_nil]; exact List.drop_nil.symm
      | low :: high :: rest => exact ih rest

theorem words_pairBytes_append (pairs : List (UInt8 × UInt8)) (rest : List UInt8) :
    words (pairBytes pairs ++ rest) = pairWords pairs ++ words rest := by
  induction pairs with
  | nil => rfl
  | cons p pairs ih => exact congrArg (wordOf p.1 p.2 :: ·) ih

theorem wordAt?_level (index : Nat) :
    wordAt? (flag :: low :: high :: depth :: rest) (4 + 2 * index) = (words rest)[index]? := by
  have hdrop : (flag :: low :: high :: depth :: rest).drop (4 + 2 * index) =
      rest.drop (2 * index) := by
    rw [Nat.add_comm]
    rfl
  rw [wordAt?, hdrop, words_drop, List.head?_drop]

theorem wordAt?_level_of_lt {pairs : List (UInt8 × UInt8)} {index : Nat}
    (h : index < pairs.length) :
    wordAt? (flag :: low :: high :: depth :: (pairBytes pairs ++ rest)) (4 + 2 * index) =
      (pairWords pairs)[index]? := by
  rw [wordAt?_level, words_pairBytes_append, List.getElem?_append_left]
  rwa [length_pairWords]

theorem length_of_pairs (flag low high depth : UInt8) (pairs : List (UInt8 × UInt8))
    (rest : List UInt8) :
    (flag :: low :: high :: depth :: (pairBytes pairs ++ rest)).length =
      4 + 2 * pairs.length + rest.length := by
  simp only [List.length_cons, List.length_append, length_pairBytes]
  omega

/-! ### Nothing is wrong in front of the defect -/

namespace Slot

theorem eq_flag_of_stop_le {f : Slot} (h : f.stop ≤ 1) : f = .flag := by
  cases f with
  | flag => rfl
  | width => exact absurd h (by decide)
  | depth => exact absurd h (by decide)
  | level index =>
      rw [stop] at h
      omega

theorem holds_of_agree (hagree : Agree flag (wordOf low high)) {f : Slot} (h : f.stop ≤ 3) :
    f.Holds (flag :: low :: high :: rest) := by
  cases f with
  | flag => exact hagree.imp (fun h => congrArg some h.1) (congrArg some)
  | width => exact hagree.imp (fun h => congrArg some h.2) (congrArg some)
  | depth => exact absurd h (by decide)
  | level index =>
      rw [stop] at h
      omega

theorem holds_of_levels {pairs : List (UInt8 × UInt8)} {l : Levels}
    (hagree : Agree flag (wordOf low high)) (hdepth : 1 ≤ depth.toNat ∧ depth.toNat ≤ 100)
    (hlevels : pairWords pairs <+: l.toList) {f : Slot} (h : f.stop ≤ 4 + 2 * pairs.length) :
    f.Holds (flag :: low :: high :: depth :: (pairBytes pairs ++ rest)) := by
  have hlt {index : Nat} (hindex : index < pairs.length) : index < l.toList.length := by
    rw [← length_pairWords] at hindex
    exact Nat.lt_of_lt_of_le hindex hlevels.length_le
  have hword {index : Nat} (hindex : index < pairs.length) :
      wordAt? (flag :: low :: high :: depth :: (pairBytes pairs ++ rest)) (4 + 2 * index) =
        some (l.toList.get ⟨index, hlt hindex⟩) := by
    have hwords : index < (pairWords pairs).length := by rwa [length_pairWords]
    rw [wordAt?_level_of_lt hindex, List.getElem?_eq_getElem hwords, hlevels.getElem,
      List.get_eq_getElem]
  cases f with
  | flag => exact holds_of_agree hagree (by decide)
  | width => exact holds_of_agree hagree (by decide)
  | depth => exact ⟨depth, rfl, hdepth⟩
  | level index =>
      have hindex : index < pairs.length := by
        rw [stop] at h
        omega
      cases index with
      | zero => exact hword hindex
      | succ index =>
          refine ⟨_, _, hword (Nat.lt_of_succ_lt hindex), hword hindex, ?_⟩
          exact List.pairwise_iff_getElem.1 l.pairwise_toList _ _ _ _ (Nat.lt_succ_self index)

theorem holds_of_depth (hagree : Agree flag (wordOf low high))
    (hdepth : 1 ≤ depth.toNat ∧ depth.toNat ≤ 100) {f : Slot} (h : f.stop ≤ 4) :
    f.Holds (flag :: low :: high :: depth :: rest) := by
  have hnone : pairWords [] <+: Levels.base.toList := List.nil_prefix
  have hholds : f.Holds (flag :: low :: high :: depth :: (pairBytes [] ++ rest)) :=
    holds_of_levels hagree hdepth hnone h
  exact hholds

end Slot

/-! ### The defect is there -/

theorem Stops.byteOffset_eq {l : Levels} {more : Nat} {d : Defect} (h : Stops l more rest d) :
    d.byteOffset (4 + 2 * l.depth + rest.length) = 4 + 2 * l.depth := by
  cases h with
  | trailing hrest => exact Nat.add_sub_cancel _ _
  | missing hrest => rfl
  | narrow hle => rfl

theorem Stops.isFound {pairs : List (UInt8 × UInt8)} {l : Levels} {more : Nat} {d : Defect}
    (h : Stops l more rest d) (hlevels : l.toList = pairWords pairs)
    (hcount : pairs.length + more = depth.toNat) :
    IsFound (flag :: low :: high :: depth :: (pairBytes pairs ++ rest)) d := by
  have hdepth : pairs.length = l.depth := by
    rw [← l.length_toList, hlevels, length_pairWords]
  have hlength := length_of_pairs flag low high depth pairs rest
  have hoffset := h.byteOffset_eq
  rw [← hdepth, ← hlength] at hoffset
  have hdue (hmore : 0 < more) :
      (Slot.level pairs.length).IsDue (flag :: low :: high :: depth :: (pairBytes pairs ++ rest)) :=
    ⟨depth, rfl, by omega⟩
  cases h with
  | trailing hrest =>
      rw [Nat.add_zero] at hcount
      rw [hcount] at hoffset hlength
      exact .trailing depth rest.length rfl rfl hoffset (List.length_pos_iff.2 hrest) hlength
  | missing hrest =>
      refine .missing (.level pairs.length) (hdue (Nat.succ_pos _)) ?_ ?_ ?_
      · rw [← hdepth]
        rfl
      · rw [hlength, Slot.start]
        omega
      · rw [hlength, Slot.stop]
        omega
  | @narrow _ low' high' rest hle =>
      obtain ⟨index, hindex⟩ : ∃ index, pairs.length = index + 1 :=
        Nat.exists_eq_add_one.2 (hdepth ▸ Nat.succ_pos _)
      have htop : wordAt? (flag :: low :: high :: depth ::
          (pairBytes pairs ++ low' :: high' :: rest)) (4 + 2 * index) = some l.top := by
        rw [wordAt?_level_of_lt (by omega), ← hlevels, ← l.getElem?_toList_top, ← hdepth, hindex]
        rfl
      have hword : wordAt? (flag :: low :: high :: depth ::
          (pairBytes pairs ++ low' :: high' :: rest)) (4 + 2 * (index + 1)) =
            some (wordOf low' high') := by
        have hbehind : (pairWords pairs).length ≤ index + 1 :=
          Nat.le_of_eq ((length_pairWords pairs).trans hindex)
        rw [wordAt?_level, words_pairBytes_append, List.getElem?_append_right hbehind,
          length_pairWords, hindex, Nat.sub_self]
        rfl
      have hdue := hdue (Nat.succ_pos _)
      rw [hindex] at hdue
      refine .broken (.level (index + 1)) hdue ?_ ?_ ?_ ⟨hdepth.symm.trans hindex, hword, htop⟩
      · rw [hoffset, hindex]
        rfl
      · rw [hlength, hindex, Slot.stop, List.length_cons, List.length_cons]
        omega
      · rintro ⟨previous, level, hprevious, hlevel, hlt⟩
        obtain rfl := Option.some.inj (htop.symm.trans hprevious)
        obtain rfl := Option.some.inj (hword.symm.trans hlevel)
        exact absurd hle (UInt16.not_le.2 hlt)

theorem Refusal.isFound {bytes : List UInt8} {d : Defect} (h : Refusal bytes d) :
    IsFound bytes d := by
  cases h with
  | short hne hlength =>
      exact .missing .width trivial rfl (List.length_pos_iff.2 hne) hlength
  | flag hzero hone =>
      refine .broken .flag trivial rfl (Nat.succ_pos _) ?_ rfl
      rintro (h | h)
      · exact hzero (Option.some.inj h)
      · exact hone (Option.some.inj h)
  | width hwidth =>
      refine .broken .width trivial rfl (Nat.le_add_left _ _) ?_ rfl
      rintro (h | h)
      · exact hwidth (Option.some.inj h)
      · exact absurd (Option.some.inj h) (by decide)
  | noDepth hagree => exact .missing .depth trivial rfl (Nat.le_refl _) (Nat.lt_succ_self _)
  | @tooDeep _ _ _ depth _ hagree hdepth =>
      refine .broken .depth trivial rfl (Nat.le_add_left _ _) ?_ ⟨rfl, hdepth⟩
      rintro ⟨depth', hfound, -, hmax⟩
      obtain rfl : depth = depth' := Option.some.inj hfound
      exact absurd hmax (Nat.not_le.2 hdepth)
  | noLevels hagree =>
      refine .broken .depth trivial rfl (Nat.le_add_left _ _) ?_ rfl
      rintro ⟨depth, hfound, hpos, -⟩
      obtain rfl : 0 = depth := Option.some.inj hfound
      exact absurd hpos (by decide)
  | noBase hagree hdepth hrest =>
      exact .missing (.level 0) ⟨_, rfl, hdepth.1⟩ rfl (Nat.le_add_left _ _)
        (Nat.add_lt_add_right hrest 4)
  | base hagree hdepth hbase =>
      refine .broken (.level 0) ⟨_, rfl, hdepth.1⟩ rfl (Nat.le_add_left _ _) ?_ rfl
      exact fun h => hbase (Option.some.inj h)
  | level hagree hdepth hlevels hcount hstops => exact hstops.isFound hlevels hcount

/-- Every field that is there and ends in front of the defect keeps its rule, but for the flag of
bytes that are too short for the pending width. -/
theorem Refusal.holds_before_iff {bytes : List UInt8} {d : Defect} (h : Refusal bytes d) :
    (∀ f : Slot, f.IsDue bytes → f.stop ≤ bytes.length → f.stop ≤ d.byteOffset bytes.length →
      f.Holds bytes) ↔ 3 ≤ bytes.length ∨ Slot.flag.Holds bytes := by
  cases h with
  | short hne hlength =>
      -- the flag alone ends in front of the width, and has not been looked at
      rw [or_iff_right (Nat.not_le.2 hlength)]
      refine ⟨fun h => h .flag trivial (List.length_pos_iff.2 hne) (Nat.le_refl 1), ?_⟩
      intro hflag f _ _ hstop
      rwa [Slot.eq_flag_of_stop_le hstop]
  | flag hzero hone =>
      refine iff_of_true (fun f _ _ hstop => ?_) (.inl (Nat.le_add_left _ _))
      obtain rfl := Slot.eq_flag_of_stop_le (Nat.le_trans hstop (Nat.zero_le 1))
      exact absurd hstop (Nat.not_succ_le_zero 0)
  | width hwidth =>
      refine iff_of_true (fun f _ _ hstop => ?_) (.inl (Nat.le_add_left _ _))
      obtain rfl := Slot.eq_flag_of_stop_le hstop
      exact .inl rfl
  | noDepth hagree =>
      exact iff_of_true (fun f _ _ hstop => Slot.holds_of_agree hagree hstop)
        (.inl (Nat.le_refl _))
  | tooDeep hagree hdepth =>
      exact iff_of_true (fun f _ _ hstop => Slot.holds_of_agree hagree hstop)
        (.inl (Nat.le_add_left _ _))
  | noLevels hagree =>
      exact iff_of_true (fun f _ _ hstop => Slot.holds_of_agree hagree hstop)
        (.inl (Nat.le_add_left _ _))
  | noBase hagree hdepth hrest =>
      exact iff_of_true (fun f _ _ hstop => Slot.holds_of_depth hagree hdepth hstop)
        (.inl (Nat.le_add_left _ _))
  | base hagree hdepth hbase =>
      exact iff_of_true (fun f _ _ hstop => Slot.holds_of_depth hagree hdepth hstop)
        (.inl (Nat.le_add_left _ _))
  | @level flag low high depth pairs l more rest d hagree hdepth hlevels hcount hstops =>
      have hoffset := hstops.byteOffset_eq
      rw [← l.length_toList, hlevels, length_pairWords, ← length_of_pairs flag low high depth]
        at hoffset
      refine iff_of_true (fun f _ _ hstop => ?_) (.inl (Nat.le_add_left _ _))
      rw [hoffset] at hstop
      exact Slot.holds_of_levels hagree hdepth ⟨[], (List.append_nil _).trans hlevels.symm⟩ hstop

end Saved

/-- **The defect that is named is there.** It is also the first one exactly if the bytes reach to
the end of the pending width or have a flag that is one; shorter bytes are called truncated in any
case. -/
theorem State.decode_names_first_iff {bytes : List UInt8} {d : Defect}
    (h : State.decode bytes = .error d) :
    IsFound bytes d ∧
      ((∀ f : Slot, f.IsDue bytes → f.stop ≤ bytes.length → f.stop ≤ d.byteOffset bytes.length →
        f.Holds bytes) ↔ 3 ≤ bytes.length ∨ Slot.flag.Holds bytes) ∧
      (bytes.length < 3 → d = .truncated "pending width" 1) := by
  have hrefusal := refusal_of_decode h
  refine ⟨hrefusal.isFound, hrefusal.holds_before_iff, fun hshort => ?_⟩
  match bytes with
  | [] => cases h
  | [_] => exact (Except.error.inj h).symm
  | [_, _] => exact (Except.error.inj h).symm
  | _ :: _ :: _ :: rest => exact absurd hshort (Nat.not_lt.2 (Nat.le_add_left 3 rest.length))

/-- The third level is not wider than the second. The second one is in order, and the third is there
and is not. -/
theorem State.decode_names_first_third_level :
    let bytes : List UInt8 := [0, 0, 0, 3, 0, 0, 4, 0, 4, 0]
    let d : Defect := .notIncreasing 2 4 4
    State.decode bytes = .error d ∧ IsFound bytes d ∧ (Slot.level 1).Holds bytes ∧
      (Slot.level 2).start = d.byteOffset bytes.length ∧ ¬(Slot.level 2).Holds bytes := by
  intro bytes d
  have hdecode : State.decode bytes = .error d := by rfl
  obtain ⟨hfound, hbefore, -⟩ := State.decode_names_first_iff hdecode
  have hholds := hbefore.2 (.inl (by decide))
  refine ⟨hdecode, hfound, ?_, rfl, ?_⟩
  · exact hholds (.level 1) ⟨3, rfl, by decide⟩ (by decide) (by decide)
  · rintro ⟨previous, level, hprevious, hlevel, hlt⟩
    obtain rfl : 4 = previous := Option.some.inj hprevious
    obtain rfl : 4 = level := Option.some.inj hlevel
    exact absurd hlt (by decide)

/-- One byte that is no flag: what is named is the pending width behind it, which is missing. -/
theorem State.decode_names_missing_width :
    let bytes : List UInt8 := [2]
    let d : Defect := .truncated "pending width" 1
    State.decode bytes = .error d ∧ Slot.flag.stop ≤ bytes.length ∧
      Slot.flag.stop ≤ d.byteOffset bytes.length ∧ ¬Slot.flag.Holds bytes := by
  refine ⟨rfl, Nat.le_refl 1, Nat.le_refl 1, ?_⟩
  rintro (h | h)
  · exact absurd (Option.some.inj h) (by decide)
  · exact absurd (Option.some.inj h) (by decide)

end Offside
