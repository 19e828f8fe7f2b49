import Offside.Proofs.TextRun
import Offside.Proofs.Unplaced

/-! Lines that hold blanks alone. A line break takes such a line with it if the blanks are spaces and
then tabs, and what is read is then the same as without the line. -/

namespace Offside

open Outline

/-! ### What is read before a line feed -/

/-- Where a part of a text stops before a line feed does not depend on what is behind that. -/
theorem Outline.UpTo.congr_lineFeed {stop : List Char → Prop} {taken rest x : List Char}
    (hstop : ∀ text x, stop (text ++ '\n' :: x) ↔ stop text)
    (h : UpTo stop taken (rest ++ '\n' :: x)) (y : List Char) :
    UpTo stop taken (rest ++ '\n' :: y) :=
  (UpTo.append_iff fun text => hstop text y).2 ((UpTo.append_iff fun text => hstop text x).1 h)

namespace Session

variable {capacity : Nat} {skipComments : Bool}

theorem unplaced_of_separators {separators : List Char} (rest : List Char) (l : Levels)
    (h : ∀ c ∈ separators, isSeparator c = true ∧ c ≠ '\n') :
    unplaced capacity skipComments (separators ++ rest) l =
      unplaced capacity skipComments rest l := by
  induction separators with
  | nil => rfl
  | cons c separators ih =>
      rw [List.forall_mem_cons] at h
      rw [List.cons_append, unplaced_of_separator _ l h.1.1 h.1.2, ih h.2]

/-- A line break goes on over lines that hold margins alone, and only the last line counts. -/
theorem unplaced_of_margins {margins : List Char} {s t : Nat} (h : Margins margins s t)
    (rest : List Char) (l : Levels) :
    unplaced capacity skipComments ('\n' :: margins ++ '\n' :: rest) l =
      unplaced capacity skipComments ('\n' :: rest) l := by
  obtain ⟨taken, rest, s', t', rfl, htaken, hends⟩ := exists_margins rest
  have hbreak : LongestBreak ('\n' :: taken) rest s' t' := longestBreak_iff.2 ⟨htaken, hends⟩
  have hlonger : LongestBreak ('\n' :: (margins ++ '\n' :: taken)) rest s' t' :=
    longestBreak_iff.2 ⟨h.append (.inl rfl) htaken, hends⟩
  calc unplaced capacity skipComments ('\n' :: margins ++ '\n' :: (taken ++ rest)) l
    _ = unplaced capacity skipComments ('\n' :: (margins ++ '\n' :: taken) ++ rest) l := by simp
    _ = unplaced capacity skipComments ('\n' :: taken ++ rest) l := by
        rw [unplaced_of_break hlonger, unplaced_of_break hbreak]

/-- Up to a line feed, a text that is read with some levels open gives the given tokens and leaves
the given levels open. The NEWLINE of a line break that goes on with the line feed is not among the
tokens. -/
def ReadBefore (capacity : Nat) (skipComments : Bool) (text : List Char) (l : Levels)
    (front : List Unplaced) (l' : Levels) : Prop :=
  ∀ x, unplaced capacity skipComments (text ++ '\n' :: x) l =
    front ++ unplaced capacity skipComments ('\n' :: x) l'

theorem ReadBefore.append {rest : List Char} {l l₁ l' : Levels} {front : List Unplaced}
    (h : ReadBefore capacity skipComments rest l₁ front l') (taken : List Char)
    (tokens : List Unplaced)
    (htaken : ∀ x, unplaced capacity skipComments (taken ++ (rest ++ '\n' :: x)) l =
      tokens ++ unplaced capacity skipComments (rest ++ '\n' :: x) l₁) :
    ReadBefore capacity skipComments (taken ++ rest) l (tokens ++ front) l' := by
  intro x
  rw [List.append_assoc, htaken, h x, List.append_assoc]

theorem exists_readBefore (text : List Char) (l : Levels) :
    ∃ front l', ReadBefore capacity skipComments text l front l' := by
  induction hn : text.length using Nat.strongRecOn generalizing text l with
  | ind n ih =>
      subst hn
      have hrest (l₁ : Levels) {taken rest : List Char} (htext : text = taken ++ rest)
          (hne : taken ≠ []) : ∃ front l', ReadBefore capacity skipComments rest l₁ front l' := by
        have hpos := List.length_pos_iff.2 hne
        refine ih rest.length ?_ rest l₁ rfl
        rw [htext, List.length_append]
        omega
      cases text with
      | nil => exact ⟨[], l, fun _ => rfl⟩
      | cons c cs =>
          by_cases hlineFeed : c = '\n'
          · subst hlineFeed
            obtain ⟨taken, rest, s, t, rfl, htaken, hends⟩ := exists_margins cs
            cases rest with
            | nil =>
                rw [List.append_nil]
                exact ⟨[], l, fun x => unplaced_of_margins htaken x l⟩
            | cons d rest =>
                obtain ⟨front, l', hread⟩ :=
                  hrest (l.fit (columns s t)) rfl (List.cons_ne_nil '\n' taken)
                have hbreak (x : List Char) :
                    LongestBreak ('\n' :: taken) (d :: rest ++ '\n' :: x) s t :=
                  longestBreak_iff.2 ⟨htaken, endsBreak_cons.2 (endsBreak_cons.1 hends)⟩
                refine ⟨_, l', hread.append ('\n' :: taken)
                  (.mark .newline l :: Unplaced.marks (columns s t) l) fun x => ?_⟩
                exact unplaced_of_break (hbreak x) l
          have hcases : PieceCases skipComments (c :: cs ++ ['\n']) _ :=
            pieceCases_atHead skipComments c (cs ++ ['\n'])
          generalize Piece.atHead skipComments c (cs ++ ['\n']) = piece at hcases
          cases hcases with
          | separator htext hseparator =>
              obtain ⟨rfl, -⟩ := List.cons_eq_cons.1 htext
              obtain ⟨front, l', hread⟩ := hrest l rfl (List.cons_ne_nil c [])
              refine ⟨front, l', hread.append [c] [] fun x => ?_⟩
              exact unplaced_of_separator _ l hseparator hlineFeed
          | comment htext hne hskip hstart htaken =>
              obtain ⟨rest, ha, rfl⟩ := exists_behind_of_endsLine htext (.inr ⟨[], rfl⟩)
                (upTo_endsLine_iff.1 htaken).2
              obtain ⟨front, l', hread⟩ := hrest l ha hne
              rw [ha] at hstart ⊢
              refine ⟨front, l', hread.append _ [] fun x => ?_⟩
              rw [startsComment_append (separates_lineFeed []),
                ← startsComment_append (separates_lineFeed x), startsComment_iff,
                List.append_assoc] at hstart
              exact unplaced_of_comment l hskip hstart
                (htaken.congr_lineFeed endsLine_append_lineFeed_iff x)
          | @content taken _ htext hne htaken =>
              obtain ⟨rest, ha, rfl⟩ := exists_behind_of_endsLine htext (.inr ⟨[], rfl⟩)
                htaken.forall_ne_lineFeed
              obtain ⟨front, l', hread⟩ := hrest l ha hne
              rw [ha]
              refine ⟨_, l', hread.append taken [⟨.content, l.toList, taken⟩] fun x => ?_⟩
              exact unplaced_of_content l hne
                (htaken.congr_lineFeed (fun text x =>
                  endsContent_append_iff (separates_lineFeed x) text) x)

theorem countP_newline_unplaced (text : List Char) (l : Levels) :
    (unplaced capacity skipComments text l).countP (·.kind = .mark .newline) =
      ((⟨0, text⟩ : Place).textTokens true skipComments).countP (·.1 = .mark .newline) := by
  have htokens : (plain capacity skipComments ⟨0, text⟩ ⟨l, none⟩).textTokens =
      (⟨0, text⟩ : Place).textTokens true skipComments := textTokens_eq _
  rw [← htokens, unplaced, textTokens, List.countP_map, List.countP_map, List.countP_filter]
  congr 1
  funext t
  simp only [Function.comp_apply, Token.unplaced]
  by_cases hkind : t.kind = .mark .newline
  · simp [hkind]
  · simp [hkind]

/-! ### A line of blanks -/

theorem exists_margin_of_blanks {blanks : List Char} (h : ∀ c ∈ blanks, c = ' ' ∨ c = '\t') :
    ∃ spaces tabs rest, blanks = margin spaces tabs ++ rest ∧
      (rest = [] ∨ tabs ≠ 0 ∧ ∃ behind, rest = ' ' :: behind) := by
  obtain ⟨taken, rest, s, t, rfl, htaken, hends⟩ := exists_margins blanks
  rw [List.forall_mem_append] at h
  cases htaken with
  | @blank _ _ ending _ _ _ hending =>
      have hblank := h.1 ending (by simp)
      rcases hending with rfl | rfl
      · exact absurd hblank (by decide)
      · exact absurd hblank (by decide)
  | last =>
      refine ⟨s, t, rest, rfl, ?_⟩
      cases rest with
      | nil => exact .inl rfl
      | cons c behind =>
          obtain ⟨htab, -, -, hspace⟩ := endsBreak_cons.1 hends
          obtain rfl := (h.2 c List.mem_cons_self).resolve_right htab
          exact .inr ⟨hspace rfl, behind, rfl⟩

theorem margins_of_blank_line {ending : List Char} (spaces tabs : Nat)
    (hending : ending = [] ∨ ending = ['\r']) :
    ∃ s t, Margins (margin spaces tabs ++ ending) s t := by
  rcases hending with rfl | rfl
  · rw [List.append_nil]
    exact ⟨spaces, tabs, .last spaces tabs⟩
  · exact ⟨0, 0, .blank spaces tabs (.inr rfl) (.last 0 0)⟩

theorem separator_of_blank_line {blanks ending : List Char}
    (hblanks : ∀ c ∈ blanks, c = ' ' ∨ c = '\t') (hending : ending = [] ∨ ending = ['\r']) :
    ∀ c ∈ blanks ++ ending, isSeparator c = true ∧ c ≠ '\n' := by
  intro c hc
  rcases List.mem_append.1 hc with hc | hc
  · rcases hblanks c hc with rfl | rfl
    · decide
    · decide
  · rcases hending with rfl | rfl
    · cases hc
    · obtain rfl := List.mem_singleton.1 hc
      decide

/-- A space behind a tab ends the line break, so that the next line feed starts another one. -/
theorem unplaced_line_ne {line : List Char} {spaces tabs : Nat} (htabs : tabs ≠ 0)
    (hline : ∀ c ∈ line, isSeparator c = true ∧ c ≠ '\n') (rest : List Char) (l : Levels) :
    unplaced capacity skipComments ('\n' :: (margin spaces tabs ++ ' ' :: line) ++ '\n' :: rest) l ≠
      unplaced capacity skipComments ('\n' :: rest) l := by
  intro heq
  have hbreak :
      LongestBreak ('\n' :: margin spaces tabs) (' ' :: line ++ '\n' :: rest) spaces tabs :=
    longestBreak_iff.2 ⟨.last spaces tabs, endsBreak_cons.2 (by simp [htabs])⟩
  have hseparators : ∀ c ∈ ' ' :: line, isSeparator c = true ∧ c ≠ '\n' :=
    List.forall_mem_cons.2 ⟨by decide, hline⟩
  have hread : unplaced capacity skipComments
      ('\n' :: margin spaces tabs ++ (' ' :: line ++ '\n' :: rest)) l = _ :=
    unplaced_of_break hbreak l
  rw [unplaced_of_separators _ _ hseparators, ← List.append_assoc, List.cons_append, heq] at hread
  have hcount := congrArg (List.countP (·.kind = .mark .newline)) hread
  rw [List.countP_cons_of_pos (by rfl), List.countP_append, countP_newline_unplaced,
    countP_newline_unplaced] at hcount
  omega

/-- With another line behind it, a line of blanks changes nothing exactly if it is a margin. -/
theorem unplaced_blank_line_iff {blanks ending : List Char}
    (hblanks : ∀ c ∈ blanks, c = ' ' ∨ c = '\t') (hending : ending = [] ∨ ending = ['\r'])
    (rest : List Char) (l : Levels) :
    unplaced capacity skipComments ('\n' :: (blanks ++ ending) ++ '\n' :: rest) l =
        unplaced capacity skipComments ('\n' :: rest) l ↔
      ∃ spaces tabs, blanks = margin spaces tabs := by
  have hline := separator_of_blank_line hblanks hending
  constructor
  · intro heq
    obtain ⟨spaces, tabs, tail, rfl, rfl | ⟨htabs, behind, rfl⟩⟩ := exists_margin_of_blanks hblanks
    · exact ⟨spaces, tabs, List.append_nil _⟩
    · rw [List.append_assoc, List.cons_append] at hline heq
      refine absurd heq (unplaced_line_ne htabs (fun c hc => ?_) rest l)
      exact hline c (List.mem_append_right _ (List.mem_cons_of_mem ' ' hc))
  · rintro ⟨spaces, tabs, rfl⟩
    obtain ⟨s, t, hmargins⟩ := margins_of_blank_line spaces tabs hending
    exact unplaced_of_margins hmargins rest l

/-- What is left of the last line when the line break has been read gives nothing more. -/
theorem unplaced_last_line {taken rest : List Char} {spaces tabs : Nat}
    (hbreak : LongestBreak ('\n' :: taken) rest spaces tabs)
    (hrest : ∀ c ∈ rest, isSeparator c = true ∧ c ≠ '\n') (l : Levels) :
    unplaced capacity skipComments ('\n' :: (taken ++ rest)) l =
      .mark .newline l :: (Unplaced.marks (columns spaces tabs) l ++
        Unplaced.closing (l.fit (columns spaces tabs))) := by
  have hclosing : unplaced capacity skipComments (rest ++ []) (l.fit (columns spaces tabs)) = _ :=
    unplaced_of_separators [] _ hrest
  rw [List.append_nil, unplaced_nil] at hclosing
  rw [← List.cons_append, unplaced_of_break hbreak, hclosing]

theorem unplaced_lineFeed (l : Levels) :
    unplaced capacity skipComments ['\n'] l = .mark .newline l :: Unplaced.closing l := by
  have hbreak : LongestBreak ['\n'] [] 0 0 :=
    longestBreak_iff.2 ⟨.last 0 0, by simp [EndsBreak]⟩
  have hread : unplaced capacity skipComments ['\n'] l = _ :=
    unplaced_last_line hbreak (by simp) l
  rwa [Unplaced.marks_append_closing_iff.2 (Nat.zero_le _)] at hread

theorem unplaced_last_line_iff {taken rest : List Char} {spaces tabs : Nat}
    (hbreak : LongestBreak ('\n' :: taken) rest spaces tabs)
    (hrest : ∀ c ∈ rest, isSeparator c = true ∧ c ≠ '\n') (l : Levels) :
    unplaced capacity skipComments ('\n' :: (taken ++ rest)) l =
        unplaced capacity skipComments ['\n'] l ↔
      columns spaces tabs ≤ l.top := by
  rw [unplaced_last_line hbreak hrest, unplaced_lineFeed, List.cons.injEq, and_iff_right rfl,
    Unplaced.marks_append_closing_iff]

end Session

open Session

/-- **Which lines of blanks leave the tokens as they are.** With another line behind it, a line does
so exactly if no space stands behind a tab in it; as the last line, exactly if its measured columns
are no more than those of the innermost level. -/
theorem blank_line_iff (capacity : Nat) (skipComments : Bool) (a b blanks ending : List Char)
    (hblanks : ∀ c ∈ blanks, c = ' ' ∨ c = '\t') (hending : ending = [] ∨ ending = ['\r']) :
    let config : Config := ⟨.full, false, capacity, skipComments⟩
    let line := blanks ++ ending
    (lexUnplaced config (a ++ '\n' :: line ++ '\n' :: b) = lexUnplaced config (a ++ '\n' :: b) ↔
      ∃ spaces tabs, blanks = margin spaces tabs) ∧
    ∃ (taken rest : List Char) (spaces tabs : Nat) (front : List Unplaced) (l : Levels),
      line = taken ++ rest ∧ LongestBreak ('\n' :: taken) rest spaces tabs ∧
      lexUnplaced config (a ++ ['\n']) = front ++ .mark .newline l :: Unplaced.closing l ∧
      (lexUnplaced config (a ++ '\n' :: line) = lexUnplaced config (a ++ ['\n']) ↔
        columns spaces tabs ≤ l.top) := by
  intro config line
  obtain ⟨front, l, hfront⟩ := @exists_readBefore capacity skipComments a .base
  have hread (x : List Char) : lexUnplaced config (a ++ '\n' :: x) =
      front ++ unplaced capacity skipComments ('\n' :: x) l := by
    rw [lexUnplaced_eq]
    exact hfront x
  constructor
  · rw [List.append_assoc, List.cons_append, hread, hread, List.append_cancel_left_eq]
    exact unplaced_blank_line_iff hblanks hending b l
  · obtain ⟨taken, rest, spaces, tabs, htext, htaken, hends⟩ := exists_margins line
    have hbreak := longestBreak_iff.2 ⟨htaken, hends⟩
    have hrest : ∀ c ∈ rest, isSeparator c = true ∧ c ≠ '\n' := by
      intro c hc
      apply separator_of_blank_line hblanks hending
      show c ∈ line
      rw [htext]
      exact List.mem_append_right taken hc
    refine ⟨taken, rest, spaces, tabs, front, l, htext, hbreak, ?_, ?_⟩
    · rw [hread, unplaced_lineFeed]
    · rw [hread, hread, List.append_cancel_left_eq, htext]
      exact unplaced_last_line_iff hbreak hrest l

/-- A space, a tab and a carriage return. -/
theorem blank_line_iff_space_tab :
    let a := ['a', '\n', ' ', 'b']
    let line := [' ', '\t'] ++ ['\r']
    lexUnplaced {} (a ++ '\n' :: line ++ ['\n', 'c']) = lexUnplaced {} (a ++ ['\n', 'c']) ∧
      ∃ (taken rest : List Char) (spaces tabs : Nat) (front : List Unplaced) (l : Levels),
        line = taken ++ rest ∧ LongestBreak ('\n' :: taken) rest spaces tabs ∧
        lexUnplaced {} (a ++ ['\n']) = front ++ .mark .newline l :: Unplaced.closing l ∧
        (lexUnplaced {} (a ++ '\n' :: line) = lexUnplaced {} (a ++ ['\n']) ↔
          columns spaces tabs ≤ l.top) := by
  intro a line
  obtain ⟨hbehind, hlast⟩ :=
    blank_line_iff Saved.bufferSize true a ['c'] [' ', '\t'] ['\r'] (by simp) (.inr rfl)
  exact ⟨hbehind.2 ⟨1, 1, rfl⟩, hlast⟩

/-- A tab and a space before another line, and two spaces at the end, open a level that is closed
again. -/
theorem blank_line_opens_level :
    let before := ['\t', ' ']
    let last := [' ', ' ']
    let kinds (text : List Char) := (lexUnplaced {} text).map (·.kind)
    (∀ c ∈ before ++ last, c = ' ' ∨ c = '\t') ∧
      lexUnplaced {} (['a'] ++ '\n' :: before ++ '\n' :: ['b']) ≠
        lexUnplaced {} (['a'] ++ '\n' :: ['b']) ∧
      kinds (['a'] ++ '\n' :: before ++ '\n' :: ['b']) =
        [.content, .mark .newline, .mark .indent, .mark .newline, .mark .dedent, .content] ∧
      lexUnplaced {} (['a'] ++ '\n' :: last) ≠ lexUnplaced {} (['a'] ++ ['\n']) ∧
      kinds (['a'] ++ '\n' :: last) =
        [.content, .mark .newline, .mark .indent, .mark .dedent] := by
  intro before last kinds
  exact ⟨by simp [before, last], by decide +kernel⟩

end Offside
