import Offside.LineBreak

/-! The texts that a line break may take, as a grammar. Reading a line break takes the longest text
of the grammar that the input starts with, and measures its last line. -/

namespace Offside

def margin (spaces tabs : Nat) : List Char :=
  List.replicate spaces ' ' ++ List.replicate tabs '\t'

/-- A row of margins, each but the last followed by `'\n'` or `'\r'`. The numbers are those of the
last margin. -/
inductive Margins : List Char → Nat → Nat → Prop where
  | last (spaces tabs : Nat) : Margins (margin spaces tabs) spaces tabs
  | blank (spaces tabs : Nat) {ending : Char} {text : List Char} {s t : Nat}
      (hending : ending = '\n' ∨ ending = '\r') (hrest : Margins text s t) :
      Margins (margin spaces tabs ++ ending :: text) s t

/-- A line feed and the margins behind it, the last of which has the given spaces and tabs. -/
def IsBreak (text : List Char) (spaces tabs : Nat) : Prop :=
  ∃ margins, text = '\n' :: margins ∧ Margins margins spaces tabs

/-- The longest line break at the head of a text, and what follows it. -/
structure LongestBreak (taken rest : List Char) (spaces tabs : Nat) : Prop where
  isBreak : IsBreak taken spaces tabs
  length_le : ∀ other behind s t, other ++ behind = taken ++ rest → IsBreak other s t →
    other.length ≤ taken.length

/-- Nothing at the head of a text continues a line break whose last margin has so many tabs. -/
def EndsBreak (tabs : Nat) (text : List Char) : Prop :=
  ∀ c ∈ text.head?, c ≠ '\t' ∧ c ≠ '\n' ∧ c ≠ '\r' ∧ (c = ' ' → tabs ≠ 0)

theorem endsBreak_cons {tabs : Nat} {c : Char} {text : List Char} :
    EndsBreak tabs (c :: text) ↔ c ≠ '\t' ∧ c ≠ '\n' ∧ c ≠ '\r' ∧ (c = ' ' → tabs ≠ 0) := by
  simp [EndsBreak]

namespace LineBreak

open Glyph (ofChar ofChar_eq)

theorem extend_spaces (n s count : Nat) (rest : List Char) :
    extend ofChar ⟨n, s, 0⟩ (List.replicate count ' ' ++ rest) =
      extend ofChar ⟨n + count, s + count, 0⟩ rest := by
  induction count generalizing n s with
  | zero => rfl
  | succ count ih =>
      rw [List.replicate_succ, List.cons_append, extend, ofChar_eq, if_pos rfl]
      simp only [if_true, ih]
      rw [Nat.add_right_comm, Nat.add_right_comm s, Nat.add_assoc, Nat.add_assoc s]

theorem extend_tabs (n s t count : Nat) (rest : List Char) :
    extend ofChar ⟨n, s, t⟩ (List.replicate count '\t' ++ rest) =
      extend ofChar ⟨n + count, s, t + count⟩ rest := by
  induction count generalizing n t with
  | zero => rfl
  | succ count ih =>
      rw [List.replicate_succ, List.cons_append, extend, ofChar_eq, if_neg (by decide), if_pos rfl]
      simp only [ih]
      rw [Nat.add_right_comm, Nat.add_right_comm t, Nat.add_assoc, Nat.add_assoc t]

theorem extend_margin (n s t : Nat) (rest : List Char) :
    extend ofChar ⟨n, 0, 0⟩ (margin s t ++ rest) =
      extend ofChar ⟨n + (margin s t).length, s, t⟩ rest := by
  rw [margin, List.append_assoc, extend_spaces, extend_tabs, List.length_append,
    List.length_replicate, List.length_replicate, Nat.add_assoc, Nat.zero_add, Nat.zero_add]

theorem extend_ending {ending : Char} (h : ending = '\n' ∨ ending = '\r') (b : LineBreak)
    (rest : List Char) :
    extend ofChar b (ending :: rest) = extend ofChar ⟨b.length + 1, 0, 0⟩ rest := by
  rcases h with rfl | rfl
  · rw [extend, ofChar_eq]
    rfl
  · rw [extend, ofChar_eq]
    rfl

theorem extend_margins {text : List Char} {s t : Nat} (h : Margins text s t) (n : Nat)
    (rest : List Char) :
    extend ofChar ⟨n, 0, 0⟩ (text ++ rest) = extend ofChar ⟨n + text.length, s, t⟩ rest := by
  induction h generalizing n with
  | last s t => exact extend_margin n s t rest
  | @blank spaces tabs ending text s t hending _ ih =>
      calc extend ofChar ⟨n, 0, 0⟩ (margin spaces tabs ++ ending :: text ++ rest)
        _ = extend ofChar ⟨n + (margin spaces tabs).length, spaces, tabs⟩
              (ending :: (text ++ rest)) := by
            rw [List.append_assoc, List.cons_append, extend_margin]
        _ = extend ofChar ⟨n + (margin spaces tabs).length + 1, 0, 0⟩ (text ++ rest) :=
            extend_ending hending _ _
        _ = extend ofChar ⟨n + (margin spaces tabs).length + 1 + text.length, s, t⟩ rest := ih _
        _ = extend ofChar ⟨n + (margin spaces tabs ++ ending :: text).length, s, t⟩ rest := by
            rw [List.length_append, List.length_cons, Nat.add_assoc, Nat.add_assoc,
              Nat.add_comm 1]

/-- The text between two stages of reading: behind the margin of the first, it is a row of margins
that ends with that of the second. -/
def Passes (b b' : LineBreak) (input : List Char) : Prop :=
  ∃ taken rest, input = taken ++ rest ∧ b'.length = b.length + taken.length ∧
    Margins (margin b.spaces b.tabs ++ taken) b'.spaces b'.tabs

theorem Passes.refl (b : LineBreak) (input : List Char) : Passes b b input :=
  ⟨[], input, rfl, rfl, by simpa using Margins.last b.spaces b.tabs⟩

theorem Passes.cons {b b' b'' : LineBreak} {c : Char} {cs : List Char}
    (h : Passes b' b'' cs) (hlength : b'.length = b.length + 1)
    (hmargins : ∀ taken s t, Margins (margin b'.spaces b'.tabs ++ taken) s t →
      Margins (margin b.spaces b.tabs ++ c :: taken) s t) : Passes b b'' (c :: cs) := by
  obtain ⟨taken, rest, rfl, htaken, hm⟩ := h
  refine ⟨c :: taken, rest, rfl, ?_, hmargins taken _ _ hm⟩
  rw [htaken, hlength, List.length_cons, Nat.add_assoc, Nat.add_comm 1]

theorem passes_extend (b : LineBreak) (input : List Char) :
    Passes b (extend ofChar b input) input := by
  induction input generalizing b with
  | nil => exact .refl b []
  | cons c cs ih =>
      by_cases hspace : c = ' '
      · rw [extend, ofChar_eq, if_pos hspace]
        by_cases htabs : b.tabs = 0
        · rw [htabs]
          refine (ih ⟨b.length + 1, b.spaces + 1, 0⟩).cons rfl ?_
          intro taken s t h
          simpa [hspace, htabs, margin, List.replicate_succ'] using h
        · simp only [htabs, if_false]
          exact .refl b _
      by_cases htab : c = '\t'
      · rw [extend, ofChar_eq, if_neg hspace, if_pos htab]
        refine (ih ⟨b.length + 1, b.spaces, b.tabs + 1⟩).cons rfl ?_
        intro taken s t h
        simpa [htab, margin, List.replicate_succ'] using h
      by_cases hending : c = '\n' ∨ c = '\r'
      · rw [extend_ending hending]
        exact (ih ⟨b.length + 1, 0, 0⟩).cons rfl
          fun taken s t h => .blank b.spaces b.tabs hending h
      · rw [not_or] at hending
        rw [extend, ofChar_eq, if_neg hspace, if_neg htab, if_neg hending.1, if_neg hending.2]
        exact .refl b _

theorem extend_eq_self_iff {b : LineBreak} {rest : List Char} :
    extend ofChar b rest = b ↔ EndsBreak b.tabs rest := by
  cases rest with
  | nil => simp [extend, EndsBreak]
  | cons c cs =>
      have hmoved (s t : Nat) : extend ofChar ⟨b.length + 1, s, t⟩ cs ≠ b := by
        intro heq
        have hle := (length_extend ofChar ⟨b.length + 1, s, t⟩ cs).1
        rw [heq] at hle
        exact Nat.not_succ_le_self _ hle
      rw [endsBreak_cons, extend, ofChar_eq]
      by_cases hspace : c = ' '
      · by_cases htabs : b.tabs = 0
        · simp [hspace, htabs, hmoved]
        · simp [hspace, htabs]
      by_cases htab : c = '\t'
      · simp [htab, hmoved]
      by_cases hlineFeed : c = '\n'
      · simp [hlineFeed, hmoved]
      by_cases hreturn : c = '\r'
      · simp [hreturn, hmoved]
      simp [hspace, htab, hlineFeed, hreturn]

/-- A row of margins that nothing continues is as long as a line break can be. -/
theorem longestBreak_of_ends {taken rest : List Char} {s t : Nat} (hs : Margins taken s t)
    (hends : EndsBreak t rest) : LongestBreak ('\n' :: taken) rest s t := by
  refine ⟨⟨taken, rfl, hs⟩, ?_⟩
  rintro _ behind s' t' heq ⟨margins, rfl, hother⟩
  have htext : margins ++ behind = taken ++ rest := (List.cons_eq_cons.1 heq).2
  have hread := extend_margins hother 1 behind
  have hstop : extend ofChar ⟨1 + taken.length, s, t⟩ rest = _ := extend_eq_self_iff.2 hends
  rw [htext, extend_margins hs, hstop] at hread
  have hle := (length_extend ofChar ⟨1 + margins.length, s', t'⟩ behind).1
  rw [← hread] at hle
  simp only [List.length_cons] at hle ⊢
  omega

theorem longestBreak_read (input : List Char) :
    ∃ taken rest, input = taken ++ rest ∧ (read ofChar input).length = taken.length + 1 ∧
      LongestBreak ('\n' :: taken) rest (read ofChar input).spaces (read ofChar input).tabs := by
  obtain ⟨taken, rest, rfl, hlength, hmargins⟩ := passes_extend ⟨1, 0, 0⟩ input
  have hread : extend ofChar ⟨1, 0, 0⟩ (taken ++ rest) = extend ofChar ⟨1 + taken.length, _, _⟩ rest :=
    extend_margins hmargins 1 rest
  rw [show 1 + taken.length = _ from hlength.symm] at hread
  exact ⟨taken, rest, rfl, by rw [read, hlength, Nat.add_comm],
    longestBreak_of_ends hmargins (extend_eq_self_iff.1 hread.symm)⟩

theorem read_of_longestBreak {taken rest : List Char} {s t : Nat}
    (h : LongestBreak ('\n' :: taken) rest s t) :
    read ofChar (taken ++ rest) = ⟨taken.length + 1, s, t⟩ := by
  obtain ⟨taken', rest', heq, hlength, hread⟩ := longestBreak_read (taken ++ rest)
  obtain ⟨margins, hmargins, hs⟩ := h.isBreak
  obtain ⟨margins', hmargins', hs'⟩ := hread.isBreak
  obtain ⟨-, rfl⟩ := List.cons_eq_cons.1 hmargins
  obtain ⟨-, rfl⟩ := List.cons_eq_cons.1 hmargins'
  have heq' : '\n' :: taken ++ rest = '\n' :: taken' ++ rest' := congrArg ('\n' :: ·) heq
  have hle := h.length_le _ rest' _ _ heq'.symm hread.isBreak
  have hge := hread.length_le _ rest _ _ heq' h.isBreak
  simp only [List.length_cons] at hle hge
  obtain ⟨rfl, -⟩ := List.append_inj heq (by omega)
  -- The text fixes the numbers: both come from reading it with nothing behind.
  have hboth := (extend_margins hs 1 []).symm.trans (extend_margins hs' 1 [])
  simp only [extend, LineBreak.mk.injEq] at hboth
  generalize read ofChar (taken ++ rest) = b at hlength hboth ⊢
  obtain ⟨length, spaces, tabs⟩ := b
  simp only [LineBreak.mk.injEq]
  exact ⟨hlength, hboth.2.1.symm, hboth.2.2.symm⟩

end LineBreak

/-- A row of margins is the longest line break exactly if nothing behind it continues it. -/
theorem longestBreak_iff {taken rest : List Char} {s t : Nat} :
    LongestBreak ('\n' :: taken) rest s t ↔ Margins taken s t ∧ EndsBreak t rest := by
  refine ⟨fun h => ?_, fun h => LineBreak.longestBreak_of_ends h.1 h.2⟩
  obtain ⟨margins, hmargins, hs⟩ := h.isBreak
  obtain ⟨-, rfl⟩ := List.cons_eq_cons.1 hmargins
  have hread := LineBreak.extend_margins hs 1 rest
  have hlongest : LineBreak.extend Glyph.ofChar ⟨1, 0, 0⟩ (taken ++ rest) = _ :=
    LineBreak.read_of_longestBreak h
  rw [hlongest, Nat.add_comm] at hread
  exact ⟨hs, LineBreak.extend_eq_self_iff.1 hread.symm⟩

theorem LongestBreak.unique {taken rest taken' rest' : List Char} {s t s' t' : Nat}
    (h : LongestBreak taken rest s t) (h' : LongestBreak taken' rest' s' t')
    (htext : taken ++ rest = taken' ++ rest') :
    taken = taken' ∧ rest = rest' ∧ s = s' ∧ t = t' := by
  obtain ⟨margins, rfl, -⟩ := h.isBreak
  obtain ⟨margins', rfl, -⟩ := h'.isBreak
  have hbehind : margins ++ rest = margins' ++ rest' := (List.cons_eq_cons.1 htext).2
  have hread := LineBreak.read_of_longestBreak h
  rw [hbehind, LineBreak.read_of_longestBreak h'] at hread
  obtain ⟨hlength, hspaces, htabs⟩ := LineBreak.mk.inj hread
  obtain ⟨htaken, hrest⟩ := List.append_inj htext hlength.symm
  exact ⟨htaken, hrest, hspaces.symm, htabs.symm⟩

/-- A line break that does not take all of a text is as long with more text behind that. -/
theorem LongestBreak.append {taken rest : List Char} {spaces tabs : Nat}
    (h : LongestBreak taken rest spaces tabs) (hne : rest ≠ []) (behind : List Char) :
    LongestBreak taken (rest ++ behind) spaces tabs := by
  obtain ⟨margins, rfl, -⟩ := h.isBreak
  obtain ⟨c, rest, rfl⟩ := List.exists_cons_of_ne_nil hne
  obtain ⟨hmargins, hends⟩ := longestBreak_iff.1 h
  exact longestBreak_iff.2 ⟨hmargins, endsBreak_cons.2 (endsBreak_cons.1 hends)⟩

/-- Every text starts with a row of margins that nothing behind it continues. -/
theorem exists_margins (text : List Char) :
    ∃ taken rest s t, text = taken ++ rest ∧ Margins taken s t ∧ EndsBreak t rest := by
  obtain ⟨taken, rest, htext, -, hbreak⟩ := LineBreak.longestBreak_read text
  exact ⟨taken, rest, _, _, htext, longestBreak_iff.1 hbreak⟩

/-- Two rows of margins, with an end of a line between them, are one row. -/
theorem Margins.append {front back : List Char} {s t s' t' : Nat} {ending : Char}
    (h : Margins front s t) (hending : ending = '\n' ∨ ending = '\r') (h' : Margins back s' t') :
    Margins (front ++ ending :: back) s' t' := by
  induction h with
  | last s t => exact .blank s t hending h'
  | blank spaces tabs hend _ ih =>
      rw [List.append_assoc, List.cons_append]
      exact .blank spaces tabs hend ih

end Offside
