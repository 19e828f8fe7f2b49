import Offside.Proofs.PieceCases
import Offside.Proofs.ScanCases
import Offside.Proofs.SessionRun

/-! A session that accepts every mark gives the tokens of the outline of its document. The session
reads a line break, then settles the width of the line call by call; the outline settles it at once,
and both stand at the same place with the same levels when nothing is pending. -/

namespace Offside

/-! ### Levels -/

namespace Levels

def within (l : Levels) (w : UInt16) : Levels :=
  ⟨l.opened.dropWhile (w < ·),
    l.descending.sublist ((List.dropWhile_sublist _).append (.refl _))⟩

def fit (l : Levels) (w : UInt16) : Levels := if l.top < w then l.push w else l.within w

theorem opened_within (l : Levels) (w : UInt16) :
    (l.within w).opened = l.opened.dropWhile (w < ·) := rfl

theorem takeWhile_opened_of_top_le {l : Levels} {w : UInt16} (h : l.top ≤ w) :
    l.opened.takeWhile (w < ·) = [] := by
  rw [top] at h
  cases hopened : l.opened with
  | nil => rfl
  | cons a as =>
      rw [hopened, List.headD_cons] at h
      rw [List.takeWhile_cons_of_neg (by simpa using h)]

theorem within_of_top_le {l : Levels} {w : UInt16} (h : l.top ≤ w) : l.within w = l := by
  ext1
  have hall := List.takeWhile_append_dropWhile (p := fun v => w < v) (l := l.opened)
  rwa [takeWhile_opened_of_top_le h, List.nil_append] at hall

theorem exists_opened_of_lt_top {l : Levels} {w : UInt16} (h : w < l.top) :
    ∃ a, w < a ∧ l.opened = a :: l.close.opened := by
  obtain ⟨opened, descending⟩ := l
  cases opened with
  | nil => exact absurd h (Nat.not_lt_zero _)
  | cons a as => exact ⟨a, h, rfl⟩

theorem within_close {l : Levels} {w : UInt16} (h : w < l.top) : l.within w = l.close.within w := by
  obtain ⟨a, ha, hopened⟩ := exists_opened_of_lt_top h
  ext1
  rw [opened_within, opened_within, hopened, List.dropWhile_cons_of_pos (by simpa using ha)]

theorem headD_opened_append (l : Levels) : (l.opened ++ [0]).headD 0 = l.top := by
  rw [top]
  cases l.opened <;> rfl

theorem dropWhile_opened_append (l : Levels) (w : UInt16) :
    (l.opened ++ [0]).dropWhile (w < ·) = (l.within w).opened ++ [0] := by
  rw [List.dropWhile_append, opened_within]
  cases l.opened.dropWhile (w < ·) with
  | nil => simp
  | cons a as => rfl

theorem takeWhile_opened_append (l : Levels) (w : UInt16) :
    (l.opened ++ [0]).takeWhile (w < ·) = l.opened.takeWhile (w < ·) := by
  rw [List.takeWhile_append]
  split
  · rename_i h
    rw [List.takeWhile_cons_of_neg (by simp), List.append_nil]
    exact ((List.takeWhile_sublist _).eq_of_length h).symm
  · rfl

theorem levelsAt_opened_append (l : Levels) (w : UInt16) :
    Outline.levelsAt w (l.opened ++ [0]) = (l.fit w).opened ++ [0] := by
  rw [Outline.levelsAt, headD_opened_append, dropWhile_opened_append, fit]
  split
  · rename_i h
    rw [push_of_lt h, List.cons_append]
  · rfl

end Levels

/-! ### A session that accepts every mark -/

namespace Session

open Outline

/-- A session that accepts every mark and has no checkpoints. -/
def plain (capacity : Nat) (skipComments : Bool) (p : Place) (s : State) : Session :=
  ⟨⟨.full, false, capacity, skipComments⟩, p, s⟩

variable {capacity : Nat} {skipComments : Bool}

theorem drain_plain_of_mark {p : Place} {s t : State} {m : Mark} {n : Nat}
    (h : scan Glyph.ofChar .full s p.rest = ⟨some m, t, n⟩) :
    (plain capacity skipComments p s).drain.1 =
      ⟨.mark m, ⟨(p.skip n).offset, (p.skip n).offset⟩, t.levels.toList⟩ ::
        (plain capacity skipComments (p.skip n) t).drain.1 := by
  rw [drain_of_token (step_of_scan_mark h)]
  rfl

theorem markAt_opened_append (q : Nat) (m : Mark) (l : Levels) :
    markAt q m (l.opened ++ [0]) = ⟨.mark m, ⟨q, q⟩, l.toList⟩ := by
  rw [markAt, Levels.toList_eq]

/-- A width that is that of the innermost level is as good as none. -/
theorem scan_of_pending_top {α : Type} (glyph : α → Glyph) (accept : MarkSet) (l : Levels)
    (input : List α) :
    scan glyph accept ⟨l, some l.top⟩ input = scan glyph accept ⟨l, none⟩ input := by
  simp [scan, State.settle]

theorem drain_plain_of_pending_top (p : Place) (l : Levels) :
    (plain capacity skipComments p ⟨l, some l.top⟩).drain =
      (plain capacity skipComments p ⟨l, none⟩).drain := by
  apply drain_congr
  exact step_congr rfl rfl (scan_of_pending_top Glyph.ofChar .full l p.rest)

/-- A pending width that is narrower than the innermost level closes a level at each call, until it
is narrower no more. -/
theorem drain_plain_of_narrower (p : Place) (w : UInt16) (l : Levels) :
    (plain capacity skipComments p ⟨l, if l.top ≤ w then none else some w⟩).drain.1 =
      dedents p.offset (l.opened.takeWhile (w < ·)) ((l.within w).opened ++ [0]) ++
        (plain capacity skipComments p ⟨l.within w, none⟩).drain.1 := by
  induction hopened : l.opened generalizing l with
  | nil =>
      have htop : l.top ≤ w := by
        rw [Levels.top, hopened]
        exact Nat.zero_le _
      rw [if_pos htop, Levels.within_of_top_le htop]
      rfl
  | cons a as ih =>
      by_cases htop : l.top ≤ w
      · rw [if_pos htop, ← hopened, Levels.takeWhile_opened_of_top_le htop,
          Levels.within_of_top_le htop]
        rfl
      · have hlt : w < l.top := UInt16.not_le.1 htop
        have hclose : l.close.opened = as := by rw [Levels.opened_close, hopened, List.tail_cons]
        have hscan : scan Glyph.ofChar .full ⟨l, some w⟩ p.rest =
            ⟨some .dedent, ⟨l.close, if l.close.top ≤ w then none else some w⟩, 0⟩ :=
          scan_of_settle_some (State.settle_of_narrower rfl hlt) p.rest
        have hwa : w < a := by simpa [Levels.top, hopened] using hlt
        rw [if_neg htop, drain_plain_of_mark hscan, Place.skip_zero, ih l.close hclose,
          Levels.within_close hlt, List.takeWhile_cons_of_pos (by simpa using hwa), dedents,
          ← markAt_opened_append, ← hclose]
        congr 2
        rw [← Levels.takeWhile_opened_append, ← Levels.dropWhile_opened_append,
          List.takeWhile_append_dropWhile]

theorem drain_plain_of_pending (p : Place) (w : UInt16) (l : Levels) :
    (plain capacity skipComments p ⟨l, some w⟩).drain.1 =
      marksAt p.offset w (l.opened ++ [0]) ++
        (plain capacity skipComments p ⟨l.fit w, none⟩).drain.1 := by
  rw [marksAt, Levels.headD_opened_append, Levels.fit]
  by_cases hwider : l.top < w
  · have hscan : scan Glyph.ofChar .full ⟨l, some w⟩ p.rest =
        ⟨some .indent, ⟨l.push w, none⟩, 0⟩ := by
      simp [scan, State.settle, MarkSet.full, hwider]
    rw [if_pos hwider, if_pos hwider, drain_plain_of_mark hscan,
      Place.skip_zero, ← List.cons_append, ← Levels.push_of_lt hwider, markAt_opened_append]
    rfl
  · rw [if_neg hwider, if_neg hwider, Levels.takeWhile_opened_append,
      Levels.dropWhile_opened_append, ← drain_plain_of_narrower]
    by_cases htop : l.top ≤ w
    · obtain rfl : l.top = w := UInt16.le_antisymm htop (UInt16.not_lt.1 hwider)
      rw [if_pos htop, drain_plain_of_pending_top]
    · rw [if_neg htop]

theorem drain_plain_end (q : Nat) (l : Levels) :
    (plain capacity skipComments ⟨q, []⟩ ⟨l, none⟩).drain.1 = dedents q l.opened [0] := by
  induction hopened : l.opened generalizing l with
  | nil =>
      have hscan : scan Glyph.ofChar .full ⟨l, none⟩ [] = ⟨none, ⟨l, none⟩, 0⟩ := by
        simp [scan, State.settle, Levels.isOpen, hopened]
      rw [drain_of_finished (step_of_scan_none hscan), dedents]
  | cons a as ih =>
      have hclose : l.close.opened = as := by rw [Levels.opened_close, hopened, List.tail_cons]
      have hscan : scan Glyph.ofChar .full ⟨l, none⟩ [] = ⟨some .dedent, ⟨l.close, none⟩, 0⟩ := by
        simp [scan, State.settle, State.close, MarkSet.full, Levels.isOpen, hopened]
      rw [drain_plain_of_mark hscan, Place.skip_zero, ih l.close hclose, dedents,
        ← hclose, markAt_opened_append]

/-- A line feed is read as the longest line break, and the width of the line is left pending. -/
theorem drain_plain_of_break (q : Nat) {taken rest : List Char} {spaces tabs : Nat} (l : Levels)
    (h : LongestBreak taken rest spaces tabs) :
    (plain capacity skipComments ⟨q, taken ++ rest⟩ ⟨l, none⟩).drain.1 =
      markAt (q + Text.byteLength taken) .newline (l.opened ++ [0]) ::
        (plain capacity skipComments ⟨q + Text.byteLength taken, rest⟩
          ⟨l, some (columns spaces tabs)⟩).drain.1 := by
  have hwidth : LineBreak.width ⟨taken.length, spaces, tabs⟩ = columns spaces tabs := by
    rw [LineBreak.width, columns, Nat.min_comm]
  have hsettle : (⟨l, none⟩ : State).settle .full = (none, ⟨l, none⟩) :=
    State.settle_of_pending_none rfl .full
  have hscan : scan Glyph.ofChar .full ⟨l, none⟩ (taken ++ rest) =
      ⟨some .newline, ⟨l, some (columns spaces tabs)⟩, taken.length⟩ := by
    rw [scan_of_longestBreak rfl hsettle h, State.await, hwidth]
  rw [drain_plain_of_mark hscan, Place.skip_of_rest rfl, markAt_opened_append]

/-- Where neither the end nor a line feed comes next, a piece of the text is taken. -/
theorem step_plain_of_ne (q : Nat) {c : Char} {cs : List Char} (l : Levels) (hc : c ≠ '\n') :
    (plain capacity skipComments ⟨q, c :: cs⟩ ⟨l, none⟩).step =
      (plain capacity skipComments ⟨q, c :: cs⟩ ⟨l, none⟩).takePiece := by
  have hscan : scan Glyph.ofChar .full ⟨l, none⟩ (c :: cs) = ⟨none, ⟨l, none⟩, 0⟩ := by
    rw [scan, State.settle_of_pending_none rfl]
    simp [Glyph.ofChar_eq_lineFeed_iff, hc]
  exact step_of_scan_none hscan

theorem drain_plain_of_separator (q : Nat) {c : Char} (rest : List Char) (l : Levels)
    (hseparator : isSeparator c = true) (hc : c ≠ '\n') :
    (plain capacity skipComments ⟨q, c :: rest⟩ ⟨l, none⟩).drain =
      (plain capacity skipComments ⟨q + c.utf8Size, rest⟩ ⟨l, none⟩).drain := by
  have hpiece : Piece.atHead skipComments c rest = .separator := if_pos hseparator
  apply drain_of_dropped
  rw [step_plain_of_ne q l hc, takePiece, plain]
  dsimp only
  rw [hpiece]
  rfl

theorem drain_plain_of_comment (q : Nat) {taken rest : List Char} (l : Levels)
    (hskip : skipComments = true) (hstart : ∃ text, taken ++ rest = '/' :: '/' :: text)
    (htaken : UpTo EndsLine taken rest) :
    (plain capacity skipComments ⟨q, taken ++ rest⟩ ⟨l, none⟩).drain =
      (plain capacity skipComments ⟨q + Text.byteLength taken, rest⟩ ⟨l, none⟩).drain := by
  have hplace : (⟨q, taken ++ rest⟩ : Place).skip taken.length = _ := Place.skip_of_rest rfl
  obtain ⟨text, htext⟩ := hstart
  have hpiece := Piece.atHead_of_comment hskip htext.symm rfl htaken
  rw [htext] at hplace ⊢
  apply drain_of_dropped
  rw [step_plain_of_ne q l (by decide), takePiece, plain]
  dsimp only
  rw [hpiece]
  exact congrArg (fun p => Step.dropped (plain capacity skipComments p ⟨l, none⟩)) hplace

theorem drain_plain_of_content (q : Nat) {taken rest : List Char} (l : Levels) (hne : taken ≠ [])
    (htaken : UpTo (EndsContent skipComments) taken rest) :
    (plain capacity skipComments ⟨q, taken ++ rest⟩ ⟨l, none⟩).drain.1 =
      ⟨.content, ⟨q, q + Text.byteLength taken⟩, l.toList⟩ ::
        (plain capacity skipComments ⟨q + Text.byteLength taken, rest⟩ ⟨l, none⟩).drain.1 := by
  have hplace : (⟨q, taken ++ rest⟩ : Place).skip taken.length = _ := Place.skip_of_rest rfl
  obtain ⟨c, cs, htext⟩ : ∃ c cs, taken ++ rest = c :: cs := by
    obtain ⟨c, cs, rfl⟩ := List.exists_cons_of_ne_nil hne
    exact ⟨c, cs ++ rest, rfl⟩
  have hpiece := Piece.atHead_of_content htext.symm hne htaken
  have hc : c ≠ '\n' := by
    rintro rfl
    rw [Piece.atHead, if_pos isSeparator_lineFeed] at hpiece
    cases hpiece
  have hstep : (plain capacity skipComments ⟨q, c :: cs⟩ ⟨l, none⟩).step =
      contentStep q (plain capacity skipComments ((⟨q, c :: cs⟩ : Place).skip taken.length)
        ⟨l, none⟩) := by
    rw [step_plain_of_ne q l hc, takePiece, plain]
    dsimp only
    rw [hpiece]
    rfl
  rw [htext] at hplace ⊢
  rw [hplace] at hstep
  rw [drain_of_token hstep]
  rfl

theorem drain_plain_of_outline {q : Nat} {rest : List Char} {levels : List UInt16}
    {tokens : List Token} (h : Outline skipComments q rest levels tokens) (l : Levels)
    (hl : l.opened ++ [0] = levels) :
    (plain capacity skipComments ⟨q, rest⟩ ⟨l, none⟩).drain.1 = tokens := by
  induction h generalizing l with
  | finish q opened => rw [drain_plain_end, List.append_cancel_right hl]
  | lineBreak hbreak _ ih =>
      subst hl
      rw [drain_plain_of_break _ l hbreak, drain_plain_of_pending,
        ih (l.fit _) (Levels.levelsAt_opened_append l _).symm]
  | separator hseparator hlineFeed _ ih =>
      rw [drain_plain_of_separator _ _ l hseparator hlineFeed, ih l hl]
  | comment hskip hstart htaken _ ih =>
      rw [drain_plain_of_comment _ l hskip hstart htaken, ih l hl]
  | content hne htaken _ ih =>
      rw [drain_plain_of_content _ l hne htaken, ih l hl, ← hl,
        ← Levels.toList_eq]

theorem exists_outline (skipComments : Bool) (q : Nat) (text : List Char) (l : Levels) :
    ∃ tokens, Outline skipComments q text (l.opened ++ [0]) tokens := by
  induction text using reading_induction skipComments generalizing q l with
  | nil => exact ⟨_, .finish q l.opened⟩
  | lineBreak margins rest s t hbreak ih =>
      obtain ⟨tokens, hnext⟩ := ih _ (l.fit (columns s t))
      rw [← Levels.levelsAt_opened_append] at hnext
      exact ⟨_, .lineBreak hbreak hnext⟩
  | separator c rest hseparator hlineFeed ih =>
      obtain ⟨tokens, hnext⟩ := ih _ l
      exact ⟨tokens, .separator hseparator hlineFeed hnext⟩
  | comment taken rest hskip hstart htaken ih =>
      obtain ⟨tokens, hnext⟩ := ih _ l
      exact ⟨tokens, .comment hskip hstart htaken hnext⟩
  | content taken rest hne htaken ih =>
      obtain ⟨tokens, hnext⟩ := ih _ l
      exact ⟨_, .content hne htaken hnext⟩

end Session

/-- **The tokens of a document are those of its outline.** Every mark is accepted and the state is
never saved; the outline starts at the base and is the only one that the document has. -/
theorem outline_iff_lex (capacity : Nat) (skipComments : Bool) (text : List Char)
    (tokens : List Token) :
    Outline skipComments 0 text [0] tokens ↔
      lex ⟨.full, false, capacity, skipComments⟩ text = tokens := by
  have hlex {tokens : List Token} (h : Outline skipComments 0 text [0] tokens) :
      lex ⟨.full, false, capacity, skipComments⟩ text = tokens :=
    Session.drain_plain_of_outline h .base rfl
  refine ⟨hlex, ?_⟩
  rintro rfl
  obtain ⟨tokens, h⟩ := Session.exists_outline skipComments 0 text .base
  rw [hlex h]
  exact h

end Offside
