import Offside.Proofs.Declined

/-! Calls that close levels. A pending line that is narrower than some of the open levels closes
those one by one, and so does the end of the input with all levels above the base. Each call uses up
one of the levels that are to be closed, whatever else is accepted and wherever it is made. -/

namespace Offside

namespace Levels

variable {l : Levels} {w : UInt16}

theorem countP_toList_eq_zero_iff : l.toList.countP (w < ·) = 0 ↔ l.top ≤ w := by
  rw [List.countP_eq_zero]
  refine ⟨fun h => by simpa using h l.top l.top_mem_toList, fun h v hv => ?_⟩
  simpa using UInt16.le_trans (le_top hv) h

theorem depth_of_isOpen (h : l.isOpen = true) : l.depth = l.close.depth + 1 := by
  rw [← length_toList, ← toList_close_append h, List.length_append, length_toList,
    List.length_singleton]

theorem toList_of_lt_top (h : w < l.top) : l.toList = l.close.toList ++ [l.top] :=
  (toList_close_append (isOpen_of_lt_top h)).symm

theorem countP_toList_of_lt_top (h : w < l.top) :
    l.toList.countP (w < ·) = l.close.toList.countP (w < ·) + 1 := by
  rw [toList_of_lt_top h, List.countP_append, List.countP_singleton, if_pos (by simpa using h)]

theorem filter_toList_of_lt_top (h : w < l.top) :
    l.toList.filter (· ≤ w) = l.close.toList.filter (· ≤ w) := by
  have htop : [l.top].filter (· ≤ w) = [] := by simpa using h
  rw [toList_of_lt_top h, List.filter_append, htop, List.append_nil]

theorem filter_toList_of_top_le (h : l.top ≤ w) : l.toList.filter (· ≤ w) = l.toList := by
  have hnone := countP_toList_eq_zero_iff.2 h
  rw [List.countP_eq_zero] at hnone
  exact List.filter_eq_self.2 fun v hv => by simpa using hnone v hv

end Levels

namespace Reader

/-- A call at which a narrower line is pending closes a level and reads nothing. -/
theorem scan_of_narrower {accept : MarkSet} {l : Levels} {w : UInt16}
    (haccept : accept.dedent = true) (h : w < l.top) (r : Reader) :
    ∃ behind, r.Still behind ∧ r.scan accept ⟨l, some w⟩ =
      (some .dedent, ⟨l.close, if l.close.top ≤ w then none else some w⟩, behind) := by
  have heffect := r.affects_scan accept ⟨l, some w⟩
  rw [Affects, scan_eq, scan_of_settle_some (State.settle_of_narrower haccept h)] at heffect
  refine ⟨_, ?_, by rw [scan_eq, scan_of_settle_some (State.settle_of_narrower haccept h)]⟩
  cases heffect with
  | dedent _ _ _ hstill => exact hstill

/-- At the end of the input, with nothing pending, a call closes a level if there is one. -/
theorem scan_of_ended {accept : MarkSet} {r : Reader} (haccept : accept.dedent = true)
    (hend : r.glyphs = []) (l : Levels) :
    (r.scan accept ⟨l, none⟩).1 = (if l.isOpen then some .dedent else none) ∧
      (r.scan accept ⟨l, none⟩).2.1 = ⟨l.close, none⟩ := by
  rw [scan_eq, hend, Offside.scan, State.settle_of_pending_none rfl]
  simp only [haccept, Bool.true_and]
  split
  · exact ⟨rfl, rfl⟩
  · rename_i hopen
    have hclose : l.close = l := by
      ext1
      have hopened : l.opened = [] := by simpa [Levels.isOpen] using hopen
      rw [Levels.opened_close, hopened, List.tail_nil]
    rw [hclose]
    exact ⟨rfl, rfl⟩

end Reader

theorem scanTrace_of_narrower {w : UInt16} {l : Levels} {calls : List (MarkSet × Reader)}
    (hdedent : ∀ call ∈ calls, call.1.dedent = true)
    (hlength : calls.length = l.toList.countP (w < ·)) (j : Nat) (hj : j < calls.length) :
    ∃ t behind, (scanTrace ⟨l, if l.top ≤ w then none else some w⟩ calls)[j]? =
        some (some .dedent, t, behind) ∧
      calls[j].2.Still behind ∧ t.levels.toList = l.toList.take (l.depth - (j + 1)) ∧
      t.pending = (if j + 1 < calls.length then some w else none) ∧
      (j + 1 = calls.length → t.levels.toList = l.toList.filter (· ≤ w)) := by
  induction calls generalizing l j with
  | nil => exact absurd hj (Nat.not_lt_zero j)
  | cons call calls ih =>
      obtain ⟨accept, r⟩ := call
      rw [List.forall_mem_cons] at hdedent
      have hlt : w < l.top := by
        rw [← UInt16.not_le, ← Levels.countP_toList_eq_zero_iff, ← hlength]
        exact Nat.succ_ne_zero _
      have hclose : calls.length = l.close.toList.countP (w < ·) := by
        rw [Levels.countP_toList_of_lt_top hlt] at hlength
        exact Nat.succ.inj hlength
      have hlast : calls.length = 0 ↔ l.close.top ≤ w := by
        rw [hclose, Levels.countP_toList_eq_zero_iff]
      have hdepth := Levels.depth_of_isOpen (Levels.isOpen_of_lt_top hlt)
      obtain ⟨behind, hstill, hscan⟩ := r.scan_of_narrower hdedent.1 hlt
      rw [if_neg (UInt16.not_le.2 hlt), scanTrace, hscan, Levels.filter_toList_of_lt_top hlt,
        List.length_cons]
      cases j with
      | zero =>
          refine ⟨_, behind, rfl, hstill, ?_, ?_, ?_⟩
          · rw [hdepth, Nat.zero_add, Nat.add_sub_cancel, ← Levels.length_toList,
              Levels.toList_of_lt_top hlt, List.take_left]
          · dsimp only
            by_cases hnone : calls.length = 0
            · rw [if_pos (hlast.1 hnone), if_neg (by omega)]
            · rw [if_neg (mt hlast.2 hnone), if_pos (by omega)]
          · intro hone
            rw [Levels.filter_toList_of_top_le (hlast.1 (by omega))]
      | succ j =>
          obtain ⟨t, behind, hcall, hstill, hlevels, hpending, hkept⟩ :=
            ih hdedent.2 hclose j (Nat.lt_of_succ_lt_succ hj)
          refine ⟨t, behind, hcall, hstill, ?_, ?_, ?_⟩
          · rw [hlevels, hdepth, Nat.add_sub_add_right, Levels.toList_of_lt_top hlt,
              List.take_append_of_le_length]
            rw [Levels.length_toList]
            exact Nat.sub_le _ _
          · rw [hpending]
            simp only [Nat.add_lt_add_iff_right]
          · exact fun hone => hkept (Nat.succ.inj hone)

theorem marks_scanTrace_of_ended {l : Levels} {calls : List (MarkSet × Reader)}
    (hdedent : ∀ call ∈ calls, call.1.dedent = true) (hend : ∀ call ∈ calls, call.2.glyphs = [])
    {more : Nat} (hlength : calls.length = l.opened.length + more) :
    (scanTrace ⟨l, none⟩ calls).map (·.1) =
      List.replicate l.opened.length (some .dedent) ++ List.replicate more none := by
  induction calls generalizing l more with
  | nil =>
      obtain ⟨hopened, rfl⟩ := Nat.add_eq_zero_iff.1 hlength.symm
      rw [hopened]
      rfl
  | cons call calls ih =>
      obtain ⟨accept, r⟩ := call
      rw [List.forall_mem_cons] at hdedent hend
      obtain ⟨hmark, hstate⟩ := Reader.scan_of_ended hdedent.1 hend.1 l
      rw [scanTrace, List.map_cons, hmark, hstate]
      rw [List.length_cons] at hlength
      cases hopened : l.opened with
      | nil =>
          rw [hopened, List.length_nil, Nat.zero_add] at hlength
          subst hlength
          have hclose : calls.length = l.close.opened.length + calls.length := by
            rw [Levels.opened_close, hopened]
            exact (Nat.zero_add _).symm
          rw [ih hdedent.2 hend.2 hclose, Levels.opened_close, hopened, Levels.isOpen, hopened]
          rfl
      | cons a as =>
          rw [hopened, List.length_cons] at hlength
          have hclose : calls.length = l.close.opened.length + more := by
            rw [Levels.opened_close, hopened, List.tail_cons]
            omega
          rw [ih hdedent.2 hend.2 hclose, Levels.opened_close, hopened, Levels.isOpen, hopened]
          rfl

/-- **A narrower line closes exactly the levels that it leaves.** As many calls as there are wider
levels each give a DEDENT and read nothing. At the end of the input the calls close all levels above
the base, one each, and then give no mark. -/
theorem narrower_line_closes_levels (l : Levels) (calls : List (MarkSet × Reader))
    (hdedent : ∀ call ∈ calls, call.1.dedent = true) :
    (∀ w < l.top, calls.length = l.toList.countP (w < ·) → ∀ j (hj : j < calls.length),
      ∃ t behind, (scanTrace ⟨l, some w⟩ calls)[j]? = some (some .dedent, t, behind) ∧
        calls[j].2.Still behind ∧ t.levels.toList = l.toList.take (l.depth - (j + 1)) ∧
        t.pending = (if j + 1 < calls.length then some w else none) ∧
        (j + 1 = calls.length → t.levels.toList = l.toList.filter (· ≤ w))) ∧
    ∀ more, (∀ call ∈ calls, call.2.glyphs = []) → calls.length = l.depth + more →
      (scanTrace ⟨l, none⟩ calls).map (·.1) =
        List.replicate (l.depth - 1) (some .dedent) ++ List.replicate (more + 1) none := by
  constructor
  · intro w hw hlength
    have hcalls := scanTrace_of_narrower hdedent hlength
    rwa [if_neg (UInt16.not_le.2 hw)] at hcalls
  · intro more hend hlength
    rw [Levels.depth, Nat.add_right_comm] at hlength
    exact marks_scanTrace_of_ended hdedent hend hlength

/-- A line that is wider than the second level and narrower than the third; then the end. -/
theorem narrower_line_closes_levels_between :
    let l : Levels := .ofList [0, 2, 4, 8]
    let before : MarkSet × Reader := (.full, .text (.ofOffset ['x'] 0))
    let ended : MarkSet × Reader := (⟨false, false, true⟩, .text (.ofOffset [] 0))
    (∀ call ∈ [before, ended], call.1.dedent = true) ∧ 3 < l.top ∧
      [before, ended].length = l.toList.countP (3 < ·) ∧ ended.2.glyphs = [] ∧
      (∃ t behind, (scanTrace ⟨l, some 3⟩ [before, ended])[1]? = some (some .dedent, t, behind) ∧
        t.pending = none ∧ t.levels.toList = [0, 2]) ∧
      (scanTrace ⟨l, none⟩ (List.replicate 4 ended)).map (·.1) =
        [some .dedent, some .dedent, some .dedent, none] := by
  intro l before ended
  have hdedent : ∀ call ∈ [before, ended], call.1.dedent = true := by
    simp [before, ended, MarkSet.full]
  obtain ⟨t, behind, hcall, -, -, hpending, hkept⟩ :=
    (narrower_line_closes_levels l [before, ended] hdedent).1 3 (by decide) (by decide) 1 (by decide)
  refine ⟨hdedent, by decide, by decide, by decide, ⟨t, behind, hcall, hpending, ?_⟩, ?_⟩
  · rw [hkept rfl]
    decide
  · exact (narrower_line_closes_levels l (List.replicate 4 ended)
      (List.forall_mem_replicate.2 (.inr rfl))).2 0 (List.forall_mem_replicate.2 (.inr rfl))
      (by decide)

end Offside
