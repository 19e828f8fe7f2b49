import Offside.Proofs.Outline

/-! The piece at the head of a text, with the text that it takes: up to a line feed, to where
content stops, or one character. -/

namespace Offside

namespace Outline

variable {stop : List Char → Prop} {c : Char} {taken rest : List Char}

theorem UpTo.not_stop (h : UpTo stop (c :: taken) rest) : ¬ stop (c :: taken ++ rest) :=
  h.2 [] (c :: taken) rfl (List.cons_ne_nil c taken)

theorem UpTo.tail (h : UpTo stop (c :: taken) rest) : UpTo stop taken rest :=
  ⟨h.1, fun front back htaken => h.2 (c :: front) back (congrArg (c :: ·) htaken)⟩

theorem UpTo.ne_nil {text : List Char} (h : UpTo stop taken rest) (htext : text = taken ++ rest)
    (hstop : ¬ stop text) : taken ≠ [] := by
  rintro rfl
  exact hstop (htext ▸ h.1)

/-- A part that stops wherever there is a certain character holds none of those. -/
theorem UpTo.forall_ne {d : Char} (hstop : ∀ rest, stop (d :: rest)) (h : UpTo stop taken rest) :
    ∀ c ∈ taken, c ≠ d := by
  induction taken with
  | nil => simp
  | cons c taken ih =>
      refine List.forall_mem_cons.2 ⟨?_, ih h.tail⟩
      rintro rfl
      exact h.not_stop (hstop _)

/-- Two texts that stop at the same places behind a part of them stop that part alike. -/
theorem UpTo.congr {rest' : List Char}
    (hstop : ∀ back, back <:+ taken → (stop (back ++ rest') ↔ stop (back ++ rest)))
    (h : UpTo stop taken rest) : UpTo stop taken rest' := by
  refine ⟨(hstop [] (List.nil_suffix)).2 h.1, ?_⟩
  intro front back htaken hback hstops
  exact h.2 front back htaken hback ((hstop back ⟨front, htaken.symm⟩).1 hstops)

/-- Every text has such a first part, if the end is a place to stop. -/
theorem exists_upTo (stop : List Char → Prop) (hnil : stop []) (text : List Char) :
    ∃ taken rest, text = taken ++ rest ∧ UpTo stop taken rest := by
  induction text with
  | nil => exact ⟨[], [], rfl, hnil, by simp⟩
  | cons c cs ih =>
      by_cases hstop : stop (c :: cs)
      · exact ⟨[], c :: cs, rfl, hstop, by simp⟩
      · obtain ⟨taken, rest, rfl, hrest, hfirst⟩ := ih
        refine ⟨c :: taken, rest, rfl, hrest, ?_⟩
        intro front back htaken hback
        cases front with
        | nil =>
            rw [List.nil_append] at htaken
            rw [← htaken]
            exact hstop
        | cons d front => exact hfirst front back (List.cons_eq_cons.1 htaken).2 hback

theorem endsLine_cons_iff {c : Char} {text : List Char} : EndsLine (c :: text) ↔ c = '\n' := by
  simp [EndsLine]

theorem upTo_endsLine_iff : UpTo EndsLine taken rest ↔ EndsLine rest ∧ ∀ c ∈ taken, c ≠ '\n' := by
  refine ⟨fun h => ⟨h.1, h.forall_ne fun rest => .inr ⟨rest, rfl⟩⟩, fun ⟨hrest, htaken⟩ => ⟨hrest, ?_⟩⟩
  rintro front back rfl hback hends
  obtain ⟨c, back, rfl⟩ := List.exists_cons_of_ne_nil hback
  rw [List.cons_append, endsLine_cons_iff] at hends
  exact htaken c (by simp) hends

/-- A part without a line feed, at the head of a text that goes on with the end of a line, does not
go beyond that end. -/
theorem exists_behind_of_endsLine {line text : List Char} (h : line ++ text = taken ++ rest)
    (hends : EndsLine text) (htaken : ∀ c ∈ taken, c ≠ '\n') :
    ∃ behind, line = taken ++ behind ∧ rest = behind ++ text := by
  rcases List.append_eq_append_iff.1 h with ⟨front, rfl, hrest⟩ | ⟨behind, hline, hrest⟩
  · cases front with
    | nil => exact ⟨[], by simp, by simpa using hrest.symm⟩
    | cons c front =>
        rw [hrest, List.cons_append, endsLine_cons_iff] at hends
        exact absurd hends (htaken c (by simp))
  · exact ⟨behind, hline, hrest⟩

theorem startsComment_iff {text : List Char} :
    startsComment text = true ↔ ∃ rest, text = '/' :: '/' :: rest := by
  constructor
  · intro h
    rw [startsComment.eq_def] at h
    split at h
    · exact ⟨_, rfl⟩
    · cases h
  · rintro ⟨rest, rfl⟩
    rfl

theorem endsContent_cons_iff {skipComments : Bool} {cs : List Char} :
    EndsContent skipComments (c :: cs) ↔
      (isSeparator c || (skipComments && startsComment (c :: cs))) = true := by
  rw [Bool.or_eq_true, Bool.and_eq_true, startsComment_iff, EndsContent]
  simp

theorem endsContent_lineFeed {skipComments : Bool} (rest : List Char) :
    EndsContent skipComments ('\n' :: rest) := endsContent_cons_iff.2 rfl

theorem UpTo.forall_ne_lineFeed {skipComments : Bool} (h : UpTo (EndsContent skipComments) taken rest) :
    ∀ c ∈ taken, c ≠ '\n' := h.forall_ne endsContent_lineFeed

theorem lineLength_of_upTo (h : UpTo EndsLine taken rest) :
    lineLength (taken ++ rest) = taken.length := by
  induction taken with
  | nil =>
      rcases h.1 with rfl | ⟨rest, rfl⟩
      · rfl
      · rfl
  | cons c taken ih =>
      have hne : c ≠ '\n' := fun hc => h.not_stop (.inr ⟨taken ++ rest, by rw [hc]; rfl⟩)
      rw [lineLength, List.cons_append, List.takeWhile_cons_of_pos (by simpa using hne),
        List.length_cons, List.length_cons]
      exact congrArg (· + 1) (ih h.tail)

theorem contentLength_of_upTo {skipComments : Bool} (n : Nat)
    (h : UpTo (EndsContent skipComments) taken rest) :
    contentLength skipComments n (taken ++ rest) = n + taken.length := by
  induction taken generalizing n with
  | nil =>
      cases rest with
      | nil => rfl
      | cons c rest =>
          rw [List.nil_append, contentLength, if_pos (endsContent_cons_iff.1 h.1)]
          rfl
  | cons c taken ih =>
      have hgo := h.not_stop
      rw [List.cons_append, endsContent_cons_iff] at hgo
      rw [List.cons_append, contentLength, if_neg hgo, ih (n + 1) h.tail, List.length_cons]
      omega

end Outline

open Outline

theorem isSeparator_lineFeed : isSeparator '\n' = true := rfl

theorem startsComment_of_isSeparator {c : Char} (h : isSeparator c = true) (cs : List Char) :
    startsComment (c :: cs) = false := by
  rw [Bool.eq_false_iff, Ne, startsComment_iff]
  rintro ⟨rest, hslash⟩
  obtain ⟨rfl, -⟩ := List.cons_eq_cons.1 hslash
  exact absurd h (by decide)

/-- A text that no content goes on in: it starts with a separator, or is empty. -/
def Separates (behind : List Char) : Prop := ∀ c ∈ behind.head?, isSeparator c = true

theorem separates_nil : Separates [] := by simp [Separates]

theorem separates_lineFeed (text : List Char) : Separates ('\n' :: text) := by
  simp [Separates, isSeparator_lineFeed]

section

variable {behind : List Char}

theorem startsComment_append (h : Separates behind) (text : List Char) :
    startsComment (text ++ behind) = startsComment text := by
  rw [Bool.eq_iff_iff, startsComment_iff, startsComment_iff]
  cases behind with
  | nil => rw [List.append_nil]
  | cons d behind =>
      have hslash : d ≠ '/' := by
        rintro rfl
        exact absurd (h '/' rfl) (by decide)
      match text with
      | [] => simp [hslash]
      | [c] => simp [hslash]
      | c :: e :: text => simp

/-- Where content stops in a text does not depend on what is separated from it. -/
theorem endsContent_append_iff {skipComments : Bool} (h : Separates behind) (text : List Char) :
    EndsContent skipComments (text ++ behind) ↔ EndsContent skipComments text := by
  cases text with
  | nil =>
      refine iff_of_true ?_ (.inl rfl)
      cases behind with
      | nil => exact .inl rfl
      | cons d behind => exact .inr (.inl ⟨d, behind, rfl, h d rfl⟩)
  | cons c text =>
      have hcomment := startsComment_append h (c :: text)
      rw [List.cons_append] at hcomment ⊢
      rw [endsContent_cons_iff, endsContent_cons_iff, hcomment]

theorem endsLine_append_lineFeed_iff (text x : List Char) :
    EndsLine (text ++ '\n' :: x) ↔ EndsLine text := by
  cases text with
  | nil => exact iff_of_true (.inr ⟨x, rfl⟩) (.inl rfl)
  | cons c text => rw [List.cons_append, endsLine_cons_iff, endsLine_cons_iff]

/-- A part of a text stops where it did if more text does not change where to stop. -/
theorem Outline.UpTo.append_iff {stop : List Char → Prop} {taken rest : List Char}
    (hstop : ∀ text, stop (text ++ behind) ↔ stop text) :
    UpTo stop taken (rest ++ behind) ↔ UpTo stop taken rest := by
  have hback (back : List Char) : stop (back ++ (rest ++ behind)) ↔ stop (back ++ rest) := by
    rw [← List.append_assoc, hstop]
  exact ⟨.congr fun back _ => (hback back).symm, .congr fun back _ => hback back⟩

end

namespace Piece

variable {skipComments : Bool} {c : Char} {cs taken rest : List Char}

theorem atHead_of_comment (hskip : skipComments = true) (htext : c :: cs = taken ++ rest)
    (hstart : startsComment (c :: cs) = true) (htaken : UpTo EndsLine taken rest) :
    atHead skipComments c cs = .comment taken.length := by
  have hseparator : ¬ isSeparator c = true := by
    intro hc
    rw [startsComment_of_isSeparator hc] at hstart
    cases hstart
  rw [atHead, if_neg hseparator, if_pos (Bool.and_eq_true_iff.2 ⟨hskip, hstart⟩), htext,
    lineLength_of_upTo htaken]

theorem atHead_of_content (htext : c :: cs = taken ++ rest) (hne : taken ≠ [])
    (htaken : UpTo (EndsContent skipComments) taken rest) :
    atHead skipComments c cs = .content taken.length := by
  obtain ⟨d, taken, rfl⟩ := List.exists_cons_of_ne_nil hne
  rw [List.cons_append, List.cons.injEq] at htext
  obtain ⟨rfl, rfl⟩ := htext
  have hgo := htaken.not_stop
  rw [List.cons_append, endsContent_cons_iff, Bool.or_eq_true, not_or] at hgo
  rw [atHead, if_neg hgo.1, if_neg hgo.2, contentLength_of_upTo 1 htaken.tail, List.length_cons,
    Nat.add_comm]

end Piece

/-- The pieces that a text may start with, each with the text that it takes. -/
inductive PieceCases (skipComments : Bool) (text : List Char) : Piece → Prop where
  | separator {c : Char} {rest : List Char} (htext : text = c :: rest)
      (hseparator : isSeparator c = true) : PieceCases skipComments text .separator
  | comment {taken rest : List Char} (htext : text = taken ++ rest) (hne : taken ≠ [])
      (hskip : skipComments = true) (hstart : startsComment text = true)
      (htaken : UpTo EndsLine taken rest) : PieceCases skipComments text (.comment taken.length)
  | content {taken rest : List Char} (htext : text = taken ++ rest) (hne : taken ≠ [])
      (htaken : UpTo (EndsContent skipComments) taken rest) :
      PieceCases skipComments text (.content taken.length)

theorem pieceCases_atHead (skipComments : Bool) (c : Char) (cs : List Char) :
    PieceCases skipComments (c :: cs) (Piece.atHead skipComments c cs) := by
  by_cases hseparator : isSeparator c = true
  · rw [Piece.atHead, if_pos hseparator]
    exact .separator rfl hseparator
  by_cases hcomment : (skipComments && startsComment (c :: cs)) = true
  · obtain ⟨taken, rest, htext, htaken⟩ := exists_upTo EndsLine (.inl rfl) (c :: cs)
    have hgo : ¬ EndsLine (c :: cs) := by
      rintro (hnil | ⟨rest, hline⟩)
      · cases hnil
      · obtain ⟨rfl, -⟩ := List.cons_eq_cons.1 hline
        exact hseparator isSeparator_lineFeed
    obtain ⟨hskip, hstart⟩ := Bool.and_eq_true_iff.1 hcomment
    rw [Piece.atHead_of_comment hskip htext hstart htaken]
    exact .comment htext (htaken.ne_nil htext hgo) hskip hstart htaken
  · obtain ⟨taken, rest, htext, htaken⟩ :=
      exists_upTo (EndsContent skipComments) (.inl rfl) (c :: cs)
    have hgo : ¬ EndsContent skipComments (c :: cs) := by
      rw [endsContent_cons_iff, Bool.or_eq_true]
      exact not_or.2 ⟨hseparator, hcomment⟩
    have hne := htaken.ne_nil htext hgo
    rw [Piece.atHead_of_content htext hne htaken]
    exact .content htext hne htaken

/-- Induction along a text as it is read with all line breaks accepted: a line break is taken whole,
and so is any other piece. -/
theorem reading_induction (skipComments : Bool) {P : List Char → Prop} (nil : P [])
    (lineBreak : ∀ margins rest s t, LongestBreak ('\n' :: margins) rest s t → P rest →
      P ('\n' :: margins ++ rest))
    (separator : ∀ c rest, isSeparator c = true → c ≠ '\n' → P rest → P (c :: rest))
    (comment : ∀ taken rest, skipComments = true →
      (∃ text, taken ++ rest = '/' :: '/' :: text) → UpTo EndsLine taken rest → P rest →
      P (taken ++ rest))
    (content : ∀ taken rest, taken ≠ [] → UpTo (EndsContent skipComments) taken rest → P rest →
      P (taken ++ rest))
    (text : List Char) : P text := by
  induction hn : text.length using Nat.strongRecOn generalizing text with
  | ind n ih =>
      subst hn
      have hrest {taken rest : List Char} (htext : text = taken ++ rest) (hne : taken ≠ []) :
          P rest := by
        have hpos := List.length_pos_iff.2 hne
        refine ih rest.length ?_ rest rfl
        rw [htext, List.length_append]
        omega
      cases text with
      | nil => exact nil
      | cons c cs =>
          by_cases hlineFeed : c = '\n'
          · subst hlineFeed
            obtain ⟨margins, rest, rfl, -, hbreak⟩ := LineBreak.longestBreak_read cs
            exact lineBreak margins rest _ _ hbreak (hrest rfl (List.cons_ne_nil '\n' margins))
          have hcases := pieceCases_atHead skipComments c cs
          generalize Piece.atHead skipComments c cs = piece at hcases
          cases hcases with
          | separator htext hseparator =>
              obtain ⟨rfl, rfl⟩ := List.cons_eq_cons.1 htext
              exact separator c cs hseparator hlineFeed (hrest rfl (List.cons_ne_nil c []))
          | comment htext hne hskip hstart htaken =>
              rw [startsComment_iff, htext] at hstart
              rw [htext]
              exact comment _ _ hskip hstart htaken (hrest htext hne)
          | content htext hne htaken =>
              rw [htext]
              exact content _ _ hne htaken (hrest htext hne)

/-- A piece stays on the line of its first character. -/
theorem Piece.exists_taken (skipComments : Bool) (c : Char) (cs : List Char) :
    ∃ taken rest, cs = taken ++ rest ∧
      (Piece.atHead skipComments c cs).length = (c :: taken).length ∧
      ∀ d ∈ taken, d ≠ '\n' := by
  have hcases := pieceCases_atHead skipComments c cs
  generalize Piece.atHead skipComments c cs = piece at hcases ⊢
  have hstops {stop : List Char → Prop} (hstop : ∀ rest, stop ('\n' :: rest))
      {taken rest : List Char} (htext : c :: cs = taken ++ rest) (hne : taken ≠ [])
      (htaken : UpTo stop taken rest) :
      ∃ taken' rest, cs = taken' ++ rest ∧ taken.length = (c :: taken').length ∧
        ∀ d ∈ taken', d ≠ '\n' := by
    obtain ⟨d, taken, rfl⟩ := List.exists_cons_of_ne_nil hne
    obtain ⟨rfl, rfl⟩ := List.cons_eq_cons.1 htext
    exact ⟨taken, rest, rfl, rfl, htaken.tail.forall_ne hstop⟩
  cases hcases with
  | separator => exact ⟨[], cs, rfl, rfl, by simp⟩
  | comment htext hne hskip hstart htaken =>
      exact hstops (fun rest => .inr ⟨rest, rfl⟩) htext hne htaken
  | content htext hne htaken =>
      exact hstops endsContent_lineFeed htext hne htaken

end Offside
