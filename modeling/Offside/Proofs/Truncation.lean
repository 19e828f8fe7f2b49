import Mathlib.Data.List.Forall2
import Offside.Proofs.Declined
import Offside.Proofs.SavedLevels

/-! A state next to one that lacks its outermost levels. A call looks at the innermost level only,
so that both give the same marks until the levels that only one of them has come to the top. -/

namespace Offside

theorem Levels.toList_of_opened_append {l l' : Levels} {lost : List UInt16}
    (h : l.opened = l'.opened ++ lost) :
    l'.toList = 0 :: l.toList.drop (lost.length + 1) := by
  rw [toList, toList, h, List.reverse_append, List.drop_succ_cons,
    List.drop_left' List.length_reverse]

/-- The second state has levels open, and lacks the given ones, which stand right above the base of
the first. -/
structure Truncates (lost : List UInt16) (s t : State) : Prop where
  pending : t.pending = s.pending
  levels : s.levels.opened = t.levels.opened ++ lost
  isOpen : t.levels.opened ≠ []

namespace Truncates

variable {lost : List UInt16} {s t : State}

theorem depth (h : Truncates lost s t) : s.levels.depth = t.levels.depth + lost.length := by
  rw [Levels.depth, Levels.depth, h.levels, List.length_append]
  omega

theorem top_eq (h : Truncates lost s t) : t.levels.top = s.levels.top := by
  rw [Levels.top, Levels.top, h.levels]
  cases hopened : t.levels.opened with
  | nil => exact absurd hopened h.isOpen
  | cons w ws => rfl

theorem isOpen_eq (h : Truncates lost s t) : t.levels.isOpen = s.levels.isOpen := by
  have hopen : s.levels.opened ≠ [] := by
    rw [h.levels]
    exact List.append_ne_nil_of_left_ne_nil h.isOpen lost
  rw [Levels.isOpen_eq_true_iff.2 h.isOpen, Levels.isOpen_eq_true_iff.2 hopen]

theorem congr_pending (h : Truncates lost s t) (pending : Option UInt16) :
    Truncates lost ⟨s.levels, pending⟩ ⟨t.levels, pending⟩ :=
  ⟨rfl, h.levels, h.isOpen⟩

theorem push (h : Truncates lost s t) {w : UInt16} (hwider : s.levels.top < w) :
    Truncates lost ⟨s.levels.push w, none⟩ ⟨t.levels.push w, none⟩ := by
  have hwider' : t.levels.top < w := h.top_eq ▸ hwider
  refine ⟨rfl, ?_, ?_⟩
  · rw [Levels.push_of_lt hwider, Levels.push_of_lt hwider', h.levels, List.cons_append]
  · rw [Levels.push_of_lt hwider']
    exact List.cons_ne_nil w _

/-- What is left of a pending width when a level is closed depends on the level below. That level is
the same on both sides, unless it is one of those that only the first state has. -/
theorem close (h : Truncates lost s t) (remain : UInt16 → Option UInt16) :
    Truncates lost ⟨s.levels.close, remain s.levels.close.top⟩
        ⟨t.levels.close, remain t.levels.close.top⟩ ∨
      s.levels.close.opened = lost := by
  have hlevels : s.levels.close.opened = t.levels.close.opened ++ lost := by
    rw [Levels.opened_close, Levels.opened_close, h.levels, List.tail_append_of_ne_nil h.isOpen]
  by_cases hopen : t.levels.close.opened = []
  · rw [hopen, List.nil_append] at hlevels
    exact .inr hlevels
  · have hclosed : Truncates lost ⟨s.levels.close, none⟩ ⟨t.levels.close, none⟩ :=
      ⟨rfl, hlevels, hopen⟩
    have htop : t.levels.close.top = s.levels.close.top := hclosed.top_eq
    rw [htop]
    exact .inl (hclosed.congr_pending _)

/-- Settling gives the same mark on both sides and keeps the levels apart as they are, unless it
closes the last level that both have. -/
theorem settle (h : Truncates lost s t) (accept : MarkSet) :
    (t.settle accept).1 = (s.settle accept).1 ∧
      (Truncates lost (s.settle accept).2 (t.settle accept).2 ∨
        (s.settle accept).1 = some .dedent ∧ (s.settle accept).2.levels.opened = lost) := by
  have htop := h.top_eq
  unfold State.settle
  rw [h.pending]
  cases hpending : s.pending with
  | none => exact ⟨rfl, .inl h⟩
  | some w =>
      dsimp only
      rw [htop]
      split
      · rename_i hindent
        rw [Bool.and_eq_true, decide_eq_true_eq] at hindent
        exact ⟨rfl, .inl (h.push hindent.2)⟩
      · split
        · have hclose := h.close fun width => if width ≤ w then none else some w
          exact ⟨rfl, hclose.imp_right fun hlost => ⟨rfl, hlost⟩⟩
        · exact ⟨rfl, .inl (h.congr_pending _)⟩

theorem scan {α : Type} (h : Truncates lost s t) (glyph : α → Glyph) (accept : MarkSet)
    (input : List α) :
    let o := Offside.scan glyph accept s input
    let o' := Offside.scan glyph accept t input
    o'.mark = o.mark ∧ o'.consumed = o.consumed ∧
      (Truncates lost o.state o'.state ∨ o.mark = some .dedent ∧ o.state.levels.opened = lost) := by
  obtain ⟨hmark, hstate⟩ := h.settle accept
  dsimp only
  unfold Offside.scan
  generalize s.settle accept = settled at hmark hstate ⊢
  generalize t.settle accept = settled' at hmark hstate ⊢
  obtain ⟨mark, u⟩ := settled
  obtain ⟨mark', u'⟩ := settled'
  obtain rfl : mark' = mark := hmark
  cases mark' with
  | some m => exact ⟨rfl, rfl, hstate⟩
  | none =>
      have hsettled : Truncates lost u u' := hstate.resolve_right fun hlost => nomatch hlost.1
      cases input with
      | nil =>
          dsimp only
          rw [hsettled.isOpen_eq]
          split
          · have hclose := hsettled.close fun _ => u.pending
            rw [State.close, State.close, hsettled.pending]
            exact ⟨rfl, rfl, hclose.imp_right fun hlost => ⟨rfl, hlost⟩⟩
          · exact ⟨rfl, rfl, .inl hsettled⟩
      | cons c cs =>
          dsimp only
          split
          · exact ⟨rfl, rfl, .inl (hsettled.congr_pending _)⟩
          · exact ⟨rfl, rfl, .inl hsettled⟩

end Truncates

/-! ### Runs of calls -/

/-- Two calls, of which the second has to do without so many levels right above the base. They give
the same mark, leave the reader at the same place, and leave states that differ in no more than
these levels. -/
structure CallsAgree (missing : Nat) (call call' : Option Mark × State × Reader) : Prop where
  mark : call'.1 = call.1
  reader : call'.2.2 = call.2.2
  pending : call'.2.1.pending = call.2.1.pending
  levels : call'.2.1.levels.toList = 0 :: call.2.1.levels.toList.drop (missing + 1)

namespace Truncates

variable {lost : List UInt16} {s t : State}

theorem call (h : Truncates lost s t) (accept : MarkSet) (r : Reader) :
    let call := r.scan accept s
    let call' := r.scan accept t
    call'.1 = call.1 ∧ call'.2.2 = call.2.2 ∧
      (Truncates lost call.2.1 call'.2.1 ∨
        call.1 = some .dedent ∧ call.2.1.levels.opened = lost) := by
  obtain ⟨hmark, hconsumed, hstate⟩ := h.scan id accept r.glyphs
  rw [Reader.scan_eq, Reader.scan_eq]
  exact ⟨hmark, Reader.behind_congr hmark hconsumed r, hstate⟩

/-- As long as the first state has more levels than those that only it has, the second one keeps up
with it. -/
theorem run (h : Truncates lost s t) (calls : List (MarkSet × Reader))
    (hdeep : ∀ call ∈ scanTrace s calls, lost.length + 1 < call.2.1.levels.depth) :
    List.Forall₂ (CallsAgree lost.length) (scanTrace s calls) (scanTrace t calls) ∧
      Truncates lost (scanAll s calls).2 (scanAll t calls).2 := by
  induction calls generalizing s t with
  | nil => exact ⟨.nil, h⟩
  | cons call calls ih =>
      obtain ⟨accept, r⟩ := call
      rw [scanTrace, List.forall_mem_cons] at hdeep
      obtain ⟨hmark, hreader, hstate⟩ := h.call accept r
      have hnext : Truncates lost (r.scan accept s).2.1 (r.scan accept t).2.1 := by
        refine hstate.resolve_right fun hlost => ?_
        have hdepth := hdeep.1
        rw [Levels.depth, hlost.2] at hdepth
        exact Nat.lt_irrefl _ hdepth
      obtain ⟨hcalls, hlast⟩ := ih hnext hdeep.2
      have hagree : CallsAgree lost.length (r.scan accept s) (r.scan accept t) :=
        ⟨hmark, hreader, hnext.pending, Levels.toList_of_opened_append hnext.levels⟩
      exact ⟨.cons hagree hcalls, hlast⟩

end Truncates

open Saved in
theorem State.truncates_recover_save {s : State} {capacity : Nat}
    (htwo : 2 ≤ (recover (s.save capacity)).levels.depth)
    (hless : (recover (s.save capacity)).levels.depth < s.levels.depth) :
    ∃ lost, lost.length = s.levels.depth - (recover (s.save capacity)).levels.depth ∧
      Truncates lost s (recover (s.save capacity)) := by
  rw [recover_save] at htwo hless ⊢
  split at htwo
  · exact absurd htwo (by decide)
  · rename_i hheader
    rw [if_neg hheader] at hless ⊢
    generalize keptDepth capacity s.levels.depth - 1 = n at htwo hless ⊢
    rw [Levels.depth_keep] at htwo hless ⊢
    refine ⟨s.levels.opened.drop n, ?_, rfl, (List.take_append_drop n _).symm, ?_⟩
    · rw [List.length_drop]
      rw [Levels.depth] at hless ⊢
      omega
    · rw [← List.length_pos_iff, Levels.opened_keep, List.length_take]
      rw [Levels.depth] at htwo
      omega

/-- **A state that comes back with fewer levels behaves as before until the missing ones matter.**
Every call agrees with that on the saved state while there are levels above the missing ones. The
call that makes them run out gives DEDENT on both sides. -/
theorem recover_save_agrees_until_missing (s : State) (capacity : Nat) :
    let t := State.recover (s.save capacity)
    let k := t.levels.depth
    let d := s.levels.depth
    2 ≤ k → k < d →
      (t.pending = s.pending ∧ t.levels.toList = 0 :: s.levels.toList.drop (d - k + 1)) ∧
      ∀ calls : List (MarkSet × Reader),
        (∀ call ∈ scanTrace s calls, d - k + 2 ≤ call.2.1.levels.depth) →
        List.Forall₂ (CallsAgree (d - k)) (scanTrace s calls) (scanTrace t calls) ∧
        ∀ (accept : MarkSet) (r : Reader),
          let call := r.scan accept (scanAll s calls).2
          let call' := r.scan accept (scanAll t calls).2
          call.2.1.levels.depth < d - k + 2 →
            call.2.1.levels.depth = d - k + 1 ∧
            call.1 = some .dedent ∧ call'.1 = some .dedent ∧ call'.2.2 = call.2.2 := by
  intro t k d htwo hless
  obtain ⟨lost, hlost, htruncates⟩ := State.truncates_recover_save htwo hless
  have hmissing : d - k = lost.length := hlost.symm
  rw [hmissing]
  refine ⟨⟨htruncates.pending, Levels.toList_of_opened_append htruncates.levels⟩,
    fun calls hdeep => ?_⟩
  obtain ⟨hcalls, hlast⟩ := htruncates.run calls hdeep
  refine ⟨hcalls, ?_⟩
  intro accept r call call' hshallow
  obtain ⟨hmark, hreader, hstate⟩ := hlast.call accept r
  have hout : call.1 = some .dedent ∧ call.2.1.levels.opened = lost := by
    refine hstate.resolve_left fun hnext => ?_
    have hdepth : call.2.1.levels.depth = call'.2.1.levels.depth + lost.length := hnext.depth
    have hopen : 2 ≤ call'.2.1.levels.depth :=
      Nat.succ_le_succ (List.length_pos_iff.2 hnext.isOpen)
    omega
  refine ⟨?_, hout.1, hmark.trans hout.1, hreader⟩
  rw [Levels.depth, hout.2]

/-- Ten bytes lose one of four levels. The first DEDENT leaves the same pending width on both sides,
the second one does not. -/
theorem recover_save_agrees_until_missing_ten_bytes :
    let s := State.ofParts [0, 2, 4, 8] (some 1)
    let t := State.recover (s.save 10)
    let r : Reader := .text (.ofOffset ['x'] 0)
    let calls := [(MarkSet.full, r)]
    let call := r.scan .full (scanAll s calls).2
    let call' := r.scan .full (scanAll t calls).2
    t.levels.toList = [0, 4, 8] ∧
      List.Forall₂ (CallsAgree 1) (scanTrace s calls) (scanTrace t calls) ∧
      call.2.1.levels.depth = 2 ∧ call.1 = some .dedent ∧ call'.1 = some .dedent ∧
      call'.2.2 = call.2.2 ∧ call.2.1.pending = some 1 ∧ call'.2.1.pending = none := by
  intro s t r calls call call'
  obtain ⟨⟨-, hlevels⟩, hagree⟩ :=
    recover_save_agrees_until_missing s 10 (by decide) (by decide)
  obtain ⟨hcalls, hlast⟩ := hagree calls (by decide)
  obtain ⟨hdepth, hmark, hmark', hreader⟩ := hlast .full r (by decide)
  exact ⟨hlevels.trans (by decide), hcalls, hdepth, hmark, hmark', hreader, by decide, by decide⟩

end Offside
