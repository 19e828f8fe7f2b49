import Mathlib.Data.List.TakeWhile
import Offside.Proofs.OutlineRun

/-! Two lines of one width, one behind the other. The first has opened or closed levels for its width;
the second finds a level of that width, unless the first was narrower than the innermost level and
no level of its width was open: such a line opens none, and the second then does. -/

namespace Offside

namespace Levels

variable {l : Levels} {w : UInt16}

theorem top_within_le (l : Levels) (w : UInt16) : (l.within w).top ≤ w := by
  have hnot := List.head?_dropWhile_not (fun v => decide (w < v)) l.opened
  rw [top, opened_within]
  cases hkept : l.opened.dropWhile (w < ·) with
  | nil => exact Nat.zero_le _
  | cons v vs =>
      rw [hkept] at hnot
      simpa using hnot

theorem mem_toList_within_of_mem (h : w ∈ l.toList) : w ∈ (l.within w).toList := by
  rw [toList_eq, List.mem_reverse] at h ⊢
  rw [← List.takeWhile_append_dropWhile (p := (w < ·)) (l := l.opened ++ [0]),
    dropWhile_opened_append] at h
  refine (List.mem_append.1 h).resolve_left fun hwider => ?_
  have hlt := List.mem_takeWhile_imp hwider
  simp at hlt

theorem top_within_eq_iff : (l.within w).top = w ↔ w ∈ l.toList := by
  constructor
  · intro h
    have htop := (l.within w).top_mem_toList
    rw [h, toList_eq, List.mem_reverse, ← dropWhile_opened_append] at htop
    rw [toList_eq, List.mem_reverse]
    exact (List.dropWhile_suffix _).mem htop
  · intro h
    exact UInt16.le_antisymm (l.top_within_le w) (le_top (mem_toList_within_of_mem h))

theorem top_push_of_lt (h : l.top < w) : (l.push w).top = w := by
  rw [top, push_of_lt h, List.headD_cons]

end Levels

namespace Outline

theorem marksAt_of_top_eq {l : Levels} {w : UInt16} (q : Nat) (h : l.top = w) :
    marksAt q w (l.opened ++ [0]) = [] := by
  subst h
  rw [marksAt, Levels.headD_opened_append, if_neg (UInt16.lt_irrefl _),
    Levels.takeWhile_opened_append, Levels.takeWhile_opened_of_top_le (UInt16.le_refl _)]
  rfl

theorem marksAt_levelsAt (q : Nat) (w : UInt16) (l : Levels) :
    marksAt q w (levelsAt w (l.opened ++ [0])) =
      if w ∈ l.opened ++ [0] ∨ (l.opened ++ [0]).headD 0 < w then []
      else [markAt q .indent (w :: levelsAt w (l.opened ++ [0]))] := by
  rw [Levels.levelsAt_opened_append, Levels.headD_opened_append, Levels.fit]
  by_cases hwider : l.top < w
  · rw [if_pos hwider, if_pos (.inr hwider), marksAt_of_top_eq q (Levels.top_push_of_lt hwider)]
  have hopen : w ∈ l.opened ++ [0] ↔ (l.within w).top = w := by
    rw [Levels.top_within_eq_iff, Levels.toList_eq, List.mem_reverse]
  rw [if_neg hwider]
  by_cases hmem : w ∈ l.opened ++ [0]
  · rw [if_pos (.inl hmem), marksAt_of_top_eq q (hopen.1 hmem)]
  · have hlt : (l.within w).top < w :=
      UInt16.lt_of_le_of_ne (l.top_within_le w) (mt hopen.2 hmem)
    rw [if_neg (not_or.2 ⟨hmem, hwider⟩), marksAt, Levels.headD_opened_append, if_pos hlt]

end Outline

open Outline

/-! ### What an outline holds for the parts of its text -/

/-- A line that starts with content does so whatever comes behind its line feed. -/
theorem not_endsContent_append {skipComments : Bool} {front : List Char}
    (h : ¬ EndsContent skipComments front) (x : List Char) :
    ¬ EndsContent skipComments (front ++ '\n' :: x) := by
  rwa [endsContent_append_iff (separates_lineFeed x)]

theorem endsBreak_of_not_endsContent {skipComments : Bool} {text : List Char} (tabs : Nat)
    (h : ¬ EndsContent skipComments text) : EndsBreak tabs text := by
  cases text with
  | nil => exact absurd (.inl rfl) h
  | cons c text =>
      rw [endsContent_cons_iff, Bool.or_eq_true, not_or] at h
      refine endsBreak_cons.2 ⟨?_, ?_, ?_, ?_⟩
      all_goals
        rintro rfl
        exact absurd rfl h.1

/-- A line break with another one behind it takes that along, or stops before it. -/
theorem LongestBreak.append_cases {before margins rest taken behind : List Char} {s t s' t' : Nat}
    (hmargins : Margins margins s t) (hends : EndsBreak t rest)
    (h : LongestBreak taken behind s' t')
    (htext : before ++ ('\n' :: margins ++ rest) = taken ++ behind) :
    (taken = before ++ '\n' :: margins ∧ behind = rest ∧ s' = s ∧ t' = t) ∨
      ∃ between, before = taken ++ between ∧ behind = between ++ ('\n' :: margins ++ rest) := by
  have htakes {front : List Char} (hfront : '\n' :: front = before ++ '\n' :: margins)
      (hrow : Margins front s t) : taken = before ++ '\n' :: margins ∧ behind = rest ∧ s' = s ∧ t' = t := by
    rw [← hfront]
    refine h.unique (longestBreak_iff.2 ⟨hrow, hends⟩) ?_
    rw [hfront, List.append_assoc, ← htext]
  cases before with
  | nil => exact .inl (htakes rfl hmargins)
  | cons c before =>
      obtain ⟨margins', rfl, -⟩ := h.isBreak
      obtain ⟨rfl, -⟩ := List.cons_eq_cons.1 htext
      obtain ⟨front, between, s₁, t₁, rfl, hfront, hstop⟩ := exists_margins before
      cases between with
      | nil =>
          rw [List.append_nil] at htakes ⊢
          exact .inl (htakes rfl (hfront.append (.inl rfl) hmargins))
      | cons d between =>
          have hfirst : LongestBreak ('\n' :: front) (d :: between ++ ('\n' :: margins ++ rest)) s₁ t₁ :=
            (longestBreak_iff.2 ⟨hfront, hstop⟩).append (List.cons_ne_nil d between) _
          obtain ⟨htaken, rfl, -⟩ := h.unique hfirst (by rw [← htext]; simp)
          rw [htaken]
          exact .inr ⟨d :: between, rfl, rfl⟩

namespace Outline

variable {skipComments : Bool} {q s t : Nat} {text taken rest : List Char} {levels : List UInt16}
  {tokens : List Token}

theorem of_lineBreak (hbreak : LongestBreak taken rest s t)
    (h : Outline skipComments q (taken ++ rest) levels tokens) :
    ∃ next, tokens = markAt (q + Text.byteLength taken) .newline levels ::
        (marksAt (q + Text.byteLength taken) (columns s t) levels ++ next) ∧
      Outline skipComments (q + Text.byteLength taken) rest (levelsAt (columns s t) levels) next := by
  obtain ⟨margins, rfl, -⟩ := hbreak.isBreak
  generalize htext : '\n' :: margins ++ rest = text at h
  cases h with
  | finish => cases htext
  | lineBreak hbreak' hnext =>
      obtain ⟨rfl, rfl, rfl, rfl⟩ := hbreak'.unique hbreak htext.symm
      exact ⟨_, rfl, hnext⟩
  | separator _ hc => exact absurd (List.cons_eq_cons.1 htext).1.symm hc
  | comment _ hstart =>
      obtain ⟨text, hstart⟩ := hstart
      rw [← htext] at hstart
      cases hstart
  | @content _ taken _ _ _ hne htaken =>
      obtain ⟨c, taken, rfl⟩ := List.exists_cons_of_ne_nil hne
      obtain ⟨rfl, -⟩ := List.cons_eq_cons.1 htext
      exact absurd (endsContent_lineFeed _) htaken.not_stop

theorem of_content (hgo : ¬ EndsContent skipComments text)
    (h : Outline skipComments q text levels tokens) :
    ∃ stop next, tokens = ⟨.content, ⟨q, stop⟩, levels.reverse⟩ :: next := by
  cases h with
  | finish => exact absurd (.inl rfl) hgo
  | lineBreak hbreak =>
      obtain ⟨margins, rfl, -⟩ := hbreak.isBreak
      exact absurd (endsContent_lineFeed _) hgo
  | separator hseparator =>
      exact absurd (endsContent_cons_iff.2 (by rw [hseparator]; rfl)) hgo
  | comment hskip hstart => exact absurd (.inr (.inr ⟨hskip, hstart⟩)) hgo
  | content => exact ⟨_, _, rfl⟩

/-- A CONTENT between two offsets. -/
def ContentWithin (start stop : Nat) (token : Token) : Prop :=
  token.kind = .content ∧ start ≤ token.span.start ∧ token.span.stop ≤ stop

theorem ContentWithin.mono {start stop start' stop' : Nat} {token : Token}
    (h : ContentWithin start stop token) (hstart : start' ≤ start) (hstop : stop ≤ stop') :
    ContentWithin start' stop' token :=
  ⟨h.1, Nat.le_trans hstart h.2.1, Nat.le_trans h.2.2 hstop⟩

theorem of_line {line x : List Char} (hline : ∀ c ∈ line, c ≠ '\n')
    (h : Outline skipComments q (line ++ '\n' :: x) levels tokens) :
    ∃ contents next, tokens = contents ++ next ∧
      (∀ token ∈ contents, ContentWithin q (q + Text.byteLength line) token) ∧
      Outline skipComments (q + Text.byteLength line) ('\n' :: x) levels next := by
  generalize htext : line ++ '\n' :: x = text at h
  induction h generalizing line with
  | finish => simp at htext
  | @lineBreak q s t taken rest levels tokens hbreak hnext =>
      obtain ⟨margins, rfl, -⟩ := hbreak.isBreak
      cases line with
      | nil =>
          refine ⟨[], _, rfl, by simp, ?_⟩
          rw [List.nil_append] at htext
          rw [htext]
          exact .lineBreak hbreak hnext
      | cons c line =>
          obtain ⟨rfl, -⟩ := List.cons_eq_cons.1 htext
          exact absurd rfl (hline _ List.mem_cons_self)
  | @separator q c rest levels tokens hseparator hc hnext ih =>
      cases line with
      | nil => exact absurd (List.cons_eq_cons.1 htext).1.symm hc
      | cons d line =>
          obtain ⟨rfl, hrest⟩ := List.cons_eq_cons.1 htext
          rw [List.forall_mem_cons] at hline
          obtain ⟨contents, next, rfl, hcontents, hbehind⟩ := ih hline.2 hrest
          rw [Nat.add_assoc, ← Text.byteLength_cons] at hcontents hbehind
          exact ⟨contents, next, rfl,
            fun t ht => (hcontents t ht).mono (Nat.le_add_right _ _) (Nat.le_refl _), hbehind⟩
  | @comment q taken rest levels tokens hskip hstart htaken hnext ih =>
      obtain ⟨behind, rfl, rfl⟩ := exists_behind_of_endsLine htext (.inr ⟨x, rfl⟩)
        (upTo_endsLine_iff.1 htaken).2
      rw [List.forall_mem_append] at hline
      obtain ⟨contents, next, rfl, hcontents, hbehind⟩ := ih hline.2 rfl
      rw [Nat.add_assoc, ← Text.byteLength_append] at hcontents hbehind
      exact ⟨contents, next, rfl,
        fun t ht => (hcontents t ht).mono (Nat.le_add_right _ _) (Nat.le_refl _), hbehind⟩
  | @content q taken rest levels tokens hne htaken hnext ih =>
      obtain ⟨behind, rfl, rfl⟩ := exists_behind_of_endsLine htext (.inr ⟨x, rfl⟩)
        htaken.forall_ne_lineFeed
      rw [List.forall_mem_append] at hline
      obtain ⟨contents, next, rfl, hcontents, hbehind⟩ := ih hline.2 rfl
      rw [Nat.add_assoc, ← Text.byteLength_append] at hcontents hbehind
      refine ⟨_ :: contents, next, rfl, List.forall_mem_cons.2 ⟨⟨rfl, Nat.le_refl q, ?_⟩, ?_⟩, hbehind⟩
      · rw [Text.byteLength_append]
        exact Nat.add_le_add_left (Nat.le_add_right _ _) q
      · exact fun t ht => (hcontents t ht).mono (Nat.le_add_right _ _) (Nat.le_refl _)

/-- Among the tokens are the marks of a line of the given width, at the given offset with the given
text behind it. -/
def Reaches (skipComments : Bool) (q : Nat) (width : UInt16) (rest : List Char)
    (tokens : List Token) : Prop :=
  ∃ (front : List Token) (l : Levels) (next : List Token),
    tokens = front ++ markAt q .newline (l.opened ++ [0]) ::
        (marksAt q width (l.opened ++ [0]) ++ next) ∧
      Outline skipComments q rest (levelsAt width (l.opened ++ [0])) next

theorem Reaches.append_left {width : UInt16} (h : Reaches skipComments q width rest tokens)
    (before : List Token) : Reaches skipComments q width rest (before ++ tokens) := by
  obtain ⟨front, l, next, rfl, hnext⟩ := h
  exact ⟨before ++ front, l, next, (List.append_assoc ..).symm, hnext⟩

/-- A line break somewhere in a text gives its marks, whatever is before it. -/
theorem reaches_of_lineBreak {before margins : List Char} {l : Levels} {q' : Nat}
    (hmargins : Margins margins s t) (hends : EndsBreak t rest)
    (h : Outline skipComments q (before ++ ('\n' :: margins ++ rest)) (l.opened ++ [0]) tokens)
    (hq : q + Text.byteLength (before ++ '\n' :: margins) = q') :
    Reaches skipComments q' (columns s t) rest tokens := by
  generalize htext : before ++ ('\n' :: margins ++ rest) = text at h
  generalize hlevels : l.opened ++ [0] = levels at h
  rw [Text.byteLength_append] at hq
  induction h generalizing before l with
  | finish => simp at htext
  | @lineBreak q s' t' taken behind levels tokens hbreak hnext ih =>
      subst hlevels
      rcases hbreak.append_cases hmargins hends htext with
        ⟨rfl, rfl, rfl, rfl⟩ | ⟨between, rfl, rfl⟩
      · rw [← Text.byteLength_append] at hq
        subst hq
        exact ⟨[], l, tokens, rfl, hnext⟩
      · rw [Text.byteLength_append, ← Nat.add_assoc] at hq
        have hreaches := ih (l := l.fit _) (by omega) rfl (Levels.levelsAt_opened_append l _).symm
        rw [← List.cons_append]
        exact hreaches.append_left _
  | @separator q c rest' levels tokens hseparator hc hnext ih =>
      cases before with
      | nil => exact absurd (List.cons_eq_cons.1 htext).1.symm hc
      | cons d before =>
          obtain ⟨rfl, hrest⟩ := List.cons_eq_cons.1 htext
          rw [Text.byteLength_cons] at hq
          exact ih (by omega) hrest hlevels
  | @comment q taken rest' levels tokens hskip hstart htaken hnext ih =>
      obtain ⟨behind, rfl, rfl⟩ := exists_behind_of_endsLine htext (.inr ⟨_, rfl⟩)
        (upTo_endsLine_iff.1 htaken).2
      rw [Text.byteLength_append] at hq
      exact ih (by omega) rfl hlevels
  | @content q taken rest' levels tokens hne htaken hnext ih =>
      obtain ⟨behind, rfl, rfl⟩ := exists_behind_of_endsLine htext (.inr ⟨_, rfl⟩)
        htaken.forall_ne_lineFeed
      rw [Text.byteLength_append] at hq
      exact (ih (by omega) rfl hlevels).append_left [_]

end Outline

/-- **What lies between two lines of one width.** There is one NEWLINE and no DEDENT between their
contents. There is no INDENT either, unless the first line is narrower than the innermost level and
its width is none of the levels; then one INDENT opens that width. -/
theorem sibling_lines (capacity : Nat) (skipComments : Bool)
    (before first margins second : List Char) {s t s' t' : Nat}
    (hfirst : ¬ EndsContent skipComments first) (hline : '\n' ∉ first)
    (hmargins : Margins margins s' t') (hsecond : ¬ EndsContent skipComments second)
    (hwidth : s + 4 * t = s' + 4 * t') :
    let text := before ++ '\n' :: margin s t ++ first ++ '\n' :: margins ++ second
    let q := Text.byteLength (before ++ '\n' :: margin s t)
    let q' := Text.byteLength (before ++ '\n' :: margin s t ++ first ++ '\n' :: margins)
    let w := columns s t
    ∃ front levels contents next back,
      lex ⟨.full, false, capacity, skipComments⟩ text =
        front ++ markAt q .newline levels :: (marksAt q w levels ++
          (contents ++ markAt q' .newline (levelsAt w levels) ::
            ((if w ∈ levels ∨ levels.headD 0 < w then []
              else [markAt q' .indent (w :: levelsAt w levels)]) ++ next :: back))) ∧
      contents ≠ [] ∧
      (∀ token ∈ contents, ContentWithin q (q + Text.byteLength first) token) ∧
      next.kind = .content ∧ next.span.start = q' := by
  intro text q q' w
  have htext : text = before ++ ('\n' :: margin s t ++ (first ++ '\n' :: (margins ++ second))) := by
    simp [text]
  have houtline := (outline_iff_lex capacity skipComments text _).2 rfl
  generalize lex ⟨.full, false, capacity, skipComments⟩ text = tokens at houtline ⊢
  rw [htext] at houtline
  have hgo := not_endsContent_append hfirst (margins ++ second)
  obtain ⟨front, l, behind, rfl, hbehind⟩ : Reaches skipComments q w _ tokens :=
    reaches_of_lineBreak (l := .base) (.last s t) (endsBreak_of_not_endsContent t hgo) houtline
      (Nat.zero_add _)
  obtain ⟨stop, _, hcontent⟩ := of_content hgo hbehind
  obtain ⟨contents, lineBreak, rfl, hcontents, hlineBreak⟩ :=
    of_line (fun c hc hlineFeed => hline (hlineFeed ▸ hc)) hbehind
  have hbreak : LongestBreak ('\n' :: margins) second s' t' :=
    longestBreak_iff.2 ⟨hmargins, endsBreak_of_not_endsContent t' hsecond⟩
  obtain ⟨marks, rfl, hmarks⟩ := of_lineBreak hbreak hlineBreak
  obtain ⟨stop', back, rfl⟩ := of_content hsecond hmarks
  have hq : q + Text.byteLength first + Text.byteLength ('\n' :: margins) = q' := by
    simp [q, q', Nat.add_assoc]
  have hw : columns s' t' = w := by
    simp only [columns, w, hwidth]
  rw [hq, hw, marksAt_levelsAt]
  refine ⟨front, l.opened ++ [0], contents, _, back, rfl, ?_, hcontents, rfl, rfl⟩
  rintro rfl
  cases hcontent

/-- Four spaces in one line and a tab in the other, with a blank line between them. -/
theorem sibling_lines_of_tab :
    let text := ['a'] ++ '\n' :: margin 4 0 ++ ['b'] ++ ['\n', ' ', '\n', '\t'] ++ ['c']
    let q' := 11
    ¬ EndsContent true ['b'] ∧ Margins [' ', '\n', '\t'] 0 1 ∧ 4 + 4 * 0 = 0 + 4 * 1 ∧
      ∃ front levels contents next back,
        lex {} text = front ++ markAt 6 .newline levels :: (marksAt 6 4 levels ++
          (contents ++ markAt q' .newline (levelsAt 4 levels) ::
            ((if 4 ∈ levels ∨ levels.headD 0 < 4 then []
              else [markAt q' .indent (4 :: levelsAt 4 levels)]) ++ next :: back))) ∧
        contents ≠ [] ∧ (∀ token ∈ contents, ContentWithin 6 7 token) ∧
        next.kind = .content ∧ next.span.start = q' := by
  intro text q'
  have hfirst : ¬ EndsContent true ['b'] := by
    rw [endsContent_cons_iff]
    decide
  have hsecond : ¬ EndsContent true ['c'] := by
    rw [endsContent_cons_iff]
    decide
  have hmargins : Margins [' ', '\n', '\t'] 0 1 := .blank 1 0 (.inl rfl) (.last 0 1)
  exact ⟨hfirst, hmargins, rfl, sibling_lines Saved.bufferSize true ['a'] ['b'] _ ['c'] (s := 4)
    (t := 0) hfirst (by decide) hmargins hsecond rfl⟩

/-- The line before the last closes the level that is open and opens none, and so the last one does,
which has the same width. -/
theorem sibling_line_opens_level :
    let text := ['a'] ++ '\n' :: margin 4 0 ++ ['b'] ++ '\n' :: margin 2 0 ++ ['c'] ++
      '\n' :: margin 2 0 ++ ['d']
    '\r' ∉ text ∧ '/' ∉ text ∧
      lex {} text =
        [⟨.content, ⟨0, 1⟩, [0]⟩, ⟨.mark .newline, ⟨6, 6⟩, [0]⟩, ⟨.mark .indent, ⟨6, 6⟩, [0, 4]⟩,
          ⟨.content, ⟨6, 7⟩, [0, 4]⟩, ⟨.mark .newline, ⟨10, 10⟩, [0, 4]⟩,
          ⟨.mark .dedent, ⟨10, 10⟩, [0]⟩, ⟨.content, ⟨10, 11⟩, [0]⟩,
          ⟨.mark .newline, ⟨14, 14⟩, [0]⟩, ⟨.mark .indent, ⟨14, 14⟩, [0, 2]⟩,
          ⟨.content, ⟨14, 15⟩, [0, 2]⟩, ⟨.mark .dedent, ⟨15, 15⟩, [0]⟩] := by
  decide +kernel

end Offside
