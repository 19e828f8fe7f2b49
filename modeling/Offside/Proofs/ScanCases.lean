import Offside.Proofs.BreakGrammar
import Offside.Scan

/-! Everything that one call of the scanner can do, with the conditions under which it does it. -/

namespace Offside

/-- The outcomes of settling a pending line: the mark, if there is one, and the state behind it. -/
inductive State.Settles (accept : MarkSet) (s : State) : Option Mark → State → Prop where
  | opens {w : UInt16} (hpending : s.pending = some w) (haccept : accept.indent = true)
      (hwider : s.levels.top < w) : Settles accept s (some .indent) ⟨s.levels.push w, none⟩
  | closes {w : UInt16} (hpending : s.pending = some w) (haccept : accept.dedent = true)
      (hnarrower : w < s.levels.top) :
      Settles accept s (some .dedent)
        ⟨s.levels.close, if s.levels.close.top ≤ w then none else some w⟩
  | clears (hpending : s.pending = some s.levels.top) : Settles accept s none ⟨s.levels, none⟩
  | waits (hblocked : ∀ w, s.pending = some w →
      s.levels.top < w ∧ accept.indent = false ∨ w < s.levels.top ∧ accept.dedent = false) :
      Settles accept s none s

theorem State.settles_settle (accept : MarkSet) (s : State) :
    Settles accept s (s.settle accept).1 (s.settle accept).2 := by
  cases hpending : s.pending with
  | none =>
      rw [settle_of_pending_none hpending]
      exact .waits fun w hw => by simp [hpending] at hw
  | some w =>
      simp only [settle, hpending]
      by_cases hindent : (accept.indent && s.levels.top < w) = true
      · rw [if_pos hindent]
        simp only [Bool.and_eq_true, decide_eq_true_eq] at hindent
        exact .opens hpending hindent.1 hindent.2
      rw [if_neg hindent]
      by_cases hdedent : (accept.dedent && w < s.levels.top) = true
      · rw [if_pos hdedent]
        simp only [Bool.and_eq_true, decide_eq_true_eq] at hdedent
        exact .closes hpending hdedent.1 hdedent.2
      rw [if_neg hdedent]
      by_cases htop : w = s.levels.top
      · rw [if_pos htop]
        exact .clears (htop ▸ hpending)
      · rw [if_neg htop, ← hpending]
        refine .waits fun v hv => ?_
        obtain rfl : w = v := Option.some.inj (hpending.symm.trans hv)
        simp only [Bool.and_eq_true, decide_eq_true_eq, not_and] at hindent hdedent
        rcases UInt16.lt_or_lt_of_ne htop with h | h
        · exact .inr ⟨h, Bool.eq_false_iff.2 fun ha => hdedent ha h⟩
        · exact .inl ⟨h, Bool.eq_false_iff.2 fun ha => hindent ha h⟩

theorem State.Settles.levels_eq {accept : MarkSet} {s t : State} (h : Settles accept s none t) :
    t.levels = s.levels := by
  cases h <;> rfl

theorem State.Settles.ne_newline {accept : MarkSet} {s t : State} {mark : Option Mark}
    (h : Settles accept s mark t) : mark ≠ some .newline := by
  cases h <;> simp

/-- What is left behind a call without a mark is settled as far as it can be. -/
theorem State.Settles.settle_eq {accept : MarkSet} {s t : State} (h : Settles accept s none t) :
    t.settle accept = (none, t) := by
  cases h with
  | clears => exact settle_of_pending_none rfl accept
  | waits hblocked =>
      cases hpending : s.pending with
      | none => exact settle_of_pending_none hpending accept
      | some w =>
          rw [settle, hpending]
          rcases hblocked w hpending with ⟨hwider, haccept⟩ | ⟨hnarrower, haccept⟩
          · simp [haccept, UInt16.lt_asymm hwider, (UInt16.ne_of_lt hwider).symm, ← hpending]
          · simp [haccept, UInt16.lt_asymm hnarrower, UInt16.ne_of_lt hnarrower, ← hpending]

theorem State.settle_of_narrower {accept : MarkSet} {l : Levels} {w : UInt16}
    (haccept : accept.dedent = true) (h : w < l.top) :
    (⟨l, some w⟩ : State).settle accept =
      (some .dedent, ⟨l.close, if l.close.top ≤ w then none else some w⟩) := by
  simp [settle, haccept, h, UInt16.lt_asymm h]

/-- The state without a pending width that is that of the innermost level. Such a width is settled
without a mark by the next call, whatever that accepts, so it might as well be settled already. -/
def State.reduced (s : State) : State :=
  if s.pending = some s.levels.top then ⟨s.levels, none⟩ else s

theorem State.settle_reduced (accept : MarkSet) (s : State) :
    s.reduced.settle accept = s.settle accept := by
  rw [reduced]
  split
  · rename_i hpending
    simp [settle, hpending]
  · rfl

theorem State.Settles.reduced_eq {accept : MarkSet} {s t : State} (h : Settles accept s none t) :
    t.reduced = s.reduced := by
  cases h with
  | clears hpending =>
      rw [reduced, reduced, if_pos hpending, if_neg (by simp)]
  | waits => rfl

variable {α : Type}

/-- A pending line that gives a mark does so wherever the call is made. -/
theorem scan_of_settle_some {glyph : α → Glyph} {accept : MarkSet} {s t : State} {m : Mark}
    (h : s.settle accept = (some m, t)) (input : List α) :
    scan glyph accept s input = ⟨some m, t, 0⟩ := by
  rw [scan, h]

/-- What settling without a mark leaves is as good as what was there before. -/
theorem scan_of_settle_none {glyph : α → Glyph} {accept : MarkSet} {s t : State}
    (h : s.settle accept = (none, t)) (input : List α) :
    scan glyph accept t input = scan glyph accept s input := by
  have hsettles := s.settles_settle accept
  rw [h] at hsettles
  rw [scan, scan, h, hsettles.settle_eq]

theorem scan_reduced (glyph : α → Glyph) (accept : MarkSet) (s : State) (input : List α) :
    scan glyph accept s.reduced input = scan glyph accept s input := by
  rw [scan, scan, State.settle_reduced]

/-- States that differ only in such a width are told apart by no call. -/
theorem scan_congr {glyph : α → Glyph} {accept : MarkSet} {s t : State} {input : List α}
    (h : s.reduced = t.reduced) : scan glyph accept s input = scan glyph accept t input := by
  rw [← scan_reduced, h, scan_reduced]

inductive ScanCases (glyph : α → Glyph) (accept : MarkSet) (s : State) (input : List α) :
    Outcome → Prop where
  | settled {m : Mark} {t : State} (hsettles : s.Settles accept (some m) t) :
      ScanCases glyph accept s input ⟨some m, t, 0⟩
  | ended {t : State} (hsettles : s.Settles accept none t) (hinput : input = [])
      (haccept : accept.dedent = true) (hopen : t.levels.isOpen = true) :
      ScanCases glyph accept s input ⟨some .dedent, t.close, 0⟩
  | broken {t : State} {c : α} {cs : List α} (hsettles : s.Settles accept none t)
      (hinput : input = c :: cs) (haccept : accept.newline = true) (hglyph : glyph c = .lineFeed) :
      ScanCases glyph accept s input
        ⟨some .newline, t.await (.read glyph cs), (LineBreak.read glyph cs).length⟩
  | declined {t : State} (hsettles : s.Settles accept none t)
      (hended : input = [] → (accept.dedent && t.levels.isOpen) = false)
      (hbroken : ∀ c cs, input = c :: cs → accept.newline = true → glyph c ≠ .lineFeed) :
      ScanCases glyph accept s input ⟨none, t, 0⟩

theorem scanCases_scan (glyph : α → Glyph) (accept : MarkSet) (s : State) (input : List α) :
    ScanCases glyph accept s input (scan glyph accept s input) := by
  have hsettles := s.settles_settle accept
  rw [scan]
  split
  · rename_i m t h
    rw [h] at hsettles
    exact .settled hsettles
  · rename_i t h
    rw [h] at hsettles
    cases input with
    | nil =>
        dsimp only
        by_cases hclose : (accept.dedent && t.levels.isOpen) = true
        · rw [if_pos hclose]
          rw [Bool.and_eq_true] at hclose
          exact .ended hsettles rfl hclose.1 hclose.2
        · rw [if_neg hclose]
          exact .declined hsettles (fun _ => Bool.eq_false_iff.2 hclose) (by simp)
    | cons c cs =>
        dsimp only
        by_cases hbreak : (accept.newline && decide (glyph c = .lineFeed)) = true
        · rw [if_pos (by simpa using hbreak)]
          rw [Bool.and_eq_true, decide_eq_true_eq] at hbreak
          exact .broken hsettles rfl hbreak.1 hbreak.2
        · rw [if_neg (by simpa using hbreak)]
          refine .declined hsettles (by simp) ?_
          intro d ds hinput haccept hglyph
          obtain ⟨rfl, rfl⟩ := List.cons_eq_cons.1 hinput
          simp [haccept, hglyph] at hbreak

section

variable {glyph : α → Glyph} {accept : MarkSet} {s t : State} {input : List α} {c : α} {cs : List α}

theorem settles_of_scan_none {n : Nat} (h : scan glyph accept s input = ⟨none, t, n⟩) :
    s.Settles accept none t := by
  have hcases := scanCases_scan glyph accept s input
  rw [h] at hcases
  cases hcases with
  | declined hsettles => exact hsettles

theorem ne_lineFeed_of_scan_none {n : Nat} (h : scan glyph accept s input = ⟨none, t, n⟩)
    (hinput : input = c :: cs) (haccept : accept.newline = true) : glyph c ≠ .lineFeed := by
  have hcases := scanCases_scan glyph accept s input
  rw [h] at hcases
  cases hcases with
  | declined _ _ hbroken => exact hbroken c cs hinput haccept

/-- Where a call gives no mark, the same call again gives none either and changes nothing more. -/
theorem scan_again {n : Nat} (h : scan glyph accept s input = ⟨none, t, n⟩) :
    scan glyph accept t input = ⟨none, t, 0⟩ := by
  have hcases := scanCases_scan glyph accept s input
  rw [h] at hcases
  cases hcases with
  | declined hsettles hended hbroken =>
      rw [scan, hsettles.settle_eq]
      cases input with
      | nil =>
          dsimp only
          rw [if_neg (by simp [hended rfl])]
      | cons c cs =>
          dsimp only
          rw [if_neg (by simpa using hbroken c cs rfl)]

/-- A state that is settled as far as it can be is left as it is where no line break starts. -/
theorem scan_of_settled (h : t.settle accept = (none, t)) (hc : glyph c ≠ .lineFeed)
    (cs : List α) : scan glyph accept t (c :: cs) = ⟨none, t, 0⟩ := by
  rw [scan, h]
  dsimp only
  rw [if_neg (by simp [hc])]

end

/-- A call without a mark leaves a state that no later call tells apart from the one before. -/
theorem reduced_scan_of_mark_none {glyph : α → Glyph} {accept : MarkSet} {s : State}
    {input : List α} (h : (scan glyph accept s input).mark = none) :
    (scan glyph accept s input).state.reduced = s.reduced := by
  have hcases := scanCases_scan glyph accept s input
  generalize scan glyph accept s input = o at h hcases
  cases hcases with
  | settled => cases h
  | ended => cases h
  | broken => cases h
  | declined hsettles => exact hsettles.reduced_eq

section

variable {accept : MarkSet} {s t : State}

/-- Where nothing is left to settle and line breaks are accepted, the longest one is read. -/
theorem scan_of_longestBreak {taken rest : List Char} {spaces tabs : Nat}
    (haccept : accept.newline = true) (hsettle : s.settle accept = (none, t))
    (hbreak : LongestBreak taken rest spaces tabs) :
    scan Glyph.ofChar accept s (taken ++ rest) =
      ⟨some .newline, t.await ⟨taken.length, spaces, tabs⟩, taken.length⟩ := by
  obtain ⟨margins, rfl, -⟩ := hbreak.isBreak
  rw [scan, hsettle, List.cons_append]
  dsimp only
  rw [haccept, if_pos (by simp [Glyph.ofChar_eq_lineFeed_iff]),
    LineBreak.read_of_longestBreak hbreak]
  rfl

/-- A line break is found exactly where it is accepted, nothing is left to settle and a line feed
comes next. -/
theorem mark_scan_eq_newline_iff {input : List Char} :
    (scan Glyph.ofChar accept s input).mark = some .newline ↔
      accept.newline = true ∧ (s.settle accept).1 = none ∧ ∃ cs, input = '\n' :: cs := by
  constructor
  · intro h
    have hcases := scanCases_scan Glyph.ofChar accept s input
    cases hsettle : (s.settle accept).1 with
    | some m =>
        have hsettles := s.settles_settle accept
        rw [scan_of_settle_some (Prod.ext hsettle rfl), ← hsettle] at h
        exact absurd h hsettles.ne_newline
    | none =>
        generalize scan Glyph.ofChar accept s input = o at h hcases
        cases hcases with
        | settled hsettles => exact absurd h hsettles.ne_newline
        | ended => cases h
        | @broken _ c cs _ hinput haccept hglyph =>
            obtain rfl := Glyph.ofChar_eq_lineFeed_iff.1 hglyph
            exact ⟨haccept, rfl, cs, hinput⟩
        | declined => cases h
  · rintro ⟨haccept, hsettle, cs, rfl⟩
    obtain ⟨margins, rest, rfl, -, hbreak⟩ := LineBreak.longestBreak_read cs
    have hscan := scan_of_longestBreak haccept (Prod.ext hsettle rfl) hbreak
    rw [List.cons_append] at hscan
    rw [hscan]

theorem mark_scan_other_ne_newline (accept : MarkSet) (s : State) :
    (scan id accept s [Glyph.other]).mark ≠ some .newline := by
  have hcases := scanCases_scan id accept s [Glyph.other]
  generalize scan id accept s [Glyph.other] = o at hcases ⊢
  cases hcases with
  | settled hsettles => exact hsettles.ne_newline
  | ended => simp
  | broken _ hinput _ hglyph =>
      obtain ⟨rfl, -⟩ := List.cons_eq_cons.1 hinput
      cases hglyph
  | declined => simp

end

end Offside
