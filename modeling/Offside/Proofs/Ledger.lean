import Offside.Proofs.Operations

/-! What marks cost. A line break uses up a line feed of the text, an opened level a pending width,
and a closed level one that was open. So along any run of calls the marks are bounded by what there
was at its start, whatever is accepted at each call. -/

namespace Offside

/-- The account of a run that starts in one state before a text and ends in another before a rest of
it: the marks it gives, and the number of levels that are lost on the way without a mark. -/
structure Ledger (s : State) (text : List Char) (marks : List Mark) (lost : Nat) (t : State)
    (rest : List Char) : Prop where
  newlines : marks.count .newline + rest.count '\n' ≤ text.count '\n'
  indents : marks.count .indent + t.pending.toList.length + rest.count '\n' ≤
    s.pending.toList.length + text.count '\n'
  dedents : t.levels.depth + marks.count .dedent + lost = s.levels.depth + marks.count .indent

namespace Ledger

variable {s t u : State} {text rest behind : List Char} {marks : List Mark} {lost : Nat}

theorem refl (s : State) (text : List Char) : Ledger s text [] 0 s text :=
  ⟨by simp, by simp, by simp⟩

theorem trans {marks' : List Mark} {lost' : Nat} (h : Ledger s text marks lost t rest)
    (h' : Ledger t rest marks' lost' u behind) :
    Ledger s text (marks ++ marks') (lost + lost') u behind := by
  obtain ⟨hnewlines, hindents, hdedents⟩ := h
  obtain ⟨hnewlines', hindents', hdedents'⟩ := h'
  refine ⟨?_, ?_, ?_⟩
  all_goals
    simp only [List.count_append]
    omega

/-- Characters may be passed without a call. -/
theorem skip (s : State) (text : List Char) (n : Nat) : Ledger s text [] 0 s (text.drop n) := by
  have hle := (List.drop_sublist n text).count_le '\n'
  refine ⟨?_, ?_, by simp⟩
  all_goals
    simp only [List.count_nil]
    omega

/-- A save may lose levels, or all of the state. -/
theorem recover (capacity : Nat) (s : State) (text : List Char) :
    ∃ lost, Ledger s text [] lost (.recover (s.save capacity)) text := by
  have hdepth : 0 < s.levels.depth := Nat.succ_pos _
  rw [State.recover_save]
  split
  · refine ⟨s.levels.depth - 1, by simp, ?_, ?_⟩
    · simp [State.fresh]
    · simp only [State.fresh, Levels.depth, Levels.opened_base, List.length_nil, List.count_nil]
      omega
  · generalize Saved.keptDepth capacity s.levels.depth - 1 = kept
    refine ⟨s.levels.depth - (s.levels.keep kept).depth, by simp, by simp, ?_⟩
    rw [Levels.depth_keep, List.count_nil, List.count_nil]
    omega

theorem count_toList (m : Option Mark) (k : Mark) : m.toList.count k = [m].count (some k) := by
  cases m with
  | none => rfl
  | some m => simp [List.count_cons]

/-- Each call pays for its mark. -/
theorem scan (accept : MarkSet) (s : State) (text : List Char) :
    Ledger s text (scan Glyph.ofChar accept s text).mark.toList 0
      (scan Glyph.ofChar accept s text).state
      (text.drop (scan Glyph.ofChar accept s text).consumed) := by
  have hdepth := (effect_scan Glyph.ofChar accept s text).depth_eq
  have hcases := scanCases_scan Glyph.ofChar accept s text
  have hpending {t : State} (h : s.Settles accept none t) :
      t.pending.toList.length ≤ s.pending.toList.length := by
    rcases h.pending_eq with h | ⟨-, h⟩
    · exact Nat.le_of_eq (congrArg (·.toList.length) h)
    · simp [h]
  generalize Offside.scan Glyph.ofChar accept s text = o at hdepth hcases ⊢
  rw [← count_toList, ← count_toList] at hdepth
  cases hcases with
  | settled hsettles =>
      cases hsettles with
      | opens hw => exact ⟨by simp, by simp [hw], hdepth⟩
      | closes hw =>
          refine ⟨by simp, ?_, hdepth⟩
          dsimp only
          split
          · simp
          · simp [hw]
  | ended hsettles => exact ⟨by simp, by simpa [State.close] using hpending hsettles, hdepth⟩
  | @broken t c cs _ hinput _ hglyph =>
      obtain rfl := Glyph.ofChar_eq_lineFeed_iff.1 hglyph
      obtain ⟨n, hn⟩ := Nat.exists_eq_add_one.2 (LineBreak.length_read Glyph.ofChar cs).1
      have hle := (List.drop_sublist n cs).count_le '\n'
      rw [hinput, hn, List.drop_succ_cons]
      refine ⟨?_, ?_, hdepth⟩
      · simpa [Nat.add_comm] using hle
      · have hindent : [Mark.newline].count .indent = 0 := rfl
        rw [State.await, Option.toList_some, Option.toList_some, hindent, List.length_singleton,
          List.count_cons_self]
        omega
  | declined hsettles => exact ⟨by simp, by simpa using hpending hsettles, hdepth⟩

/-- The marks of a run, by what there was at its start. -/
theorem bounds (h : Ledger s text marks lost t rest) :
    marks.count .newline ≤ text.count '\n' ∧ marks.count .indent ≤ text.count '\n' + 1 ∧
      marks.count .dedent ≤ text.count '\n' + s.levels.depth := by
  obtain ⟨hnewlines, hindents, hdedents⟩ := h
  have hpending : s.pending.toList.length ≤ 1 := Option.length_toList_le
  have hdepth : 0 < t.levels.depth := Nat.succ_pos _
  omega

end Ledger

end Offside
