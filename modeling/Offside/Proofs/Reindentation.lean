import Mathlib.Data.List.TakeWhile
import Mathlib.Order.Monotone.Basic
import Offside.Proofs.BlankLine

/-! Texts whose lines start with other numbers of spaces. The tokens depend on the order of the
widths alone: where the new widths stand in the order of the old ones, a line opens and closes the
levels that it did, and only the widths of the levels are other ones. -/

namespace Offside

open Outline

/-! ### Widths in the same order -/

/-- Widths that stand for each other, the base for itself, in one order. -/
structure Resizing (R : UInt16 → UInt16 → Prop) : Prop where
  base : R 0 0
  lt_iff : ∀ {a a' b b' : UInt16}, R a a' → R b b' → (a' < b' ↔ a < b)

variable {R : UInt16 → UInt16 → Prop}

theorem forall₂_takeWhile_dropWhile {p q : UInt16 → Bool} (hpq : ∀ a b, R a b → p a = q b)
    {as bs : List UInt16} (h : List.Forall₂ R as bs) :
    List.Forall₂ R (as.takeWhile p) (bs.takeWhile q) ∧
      List.Forall₂ R (as.dropWhile p) (bs.dropWhile q) := by
  induction h with
  | nil => exact ⟨.nil, .nil⟩
  | @cons a b as bs hab h ih =>
      rw [List.takeWhile_cons, List.takeWhile_cons, List.dropWhile_cons, List.dropWhile_cons,
        hpq a b hab]
      split
      · exact ⟨.cons hab ih.1, ih.2⟩
      · exact ⟨.nil, .cons hab h⟩

/-- The same levels with other widths. -/
def Levels.Resized (R : UInt16 → UInt16 → Prop) (l l' : Levels) : Prop :=
  List.Forall₂ R l.opened l'.opened

namespace Levels.Resized

variable {l l' : Levels} {w w' : UInt16}

theorem base : Resized R .base .base := .nil

theorem top (hR : Resizing R) (h : Resized R l l') : R l.top l'.top := by
  rw [Resized] at h
  rw [Levels.top, Levels.top]
  generalize l.opened = opened, l'.opened = opened' at h ⊢
  cases h with
  | nil => exact hR.base
  | cons ha _ => exact ha

theorem toList (hR : Resizing R) (h : Resized R l l') : List.Forall₂ R l.toList l'.toList :=
  .cons hR.base (List.rel_reverse h)

theorem closed_kept (hR : Resizing R) (hw : R w w') (h : Resized R l l') :
    List.Forall₂ R (l.opened.takeWhile (w < ·)) (l'.opened.takeWhile (w' < ·)) ∧
      Resized R (l.within w) (l'.within w') := by
  apply forall₂_takeWhile_dropWhile ?_ h
  intro a b hab
  rw [decide_eq_decide]
  exact (hR.lt_iff hw hab).symm

theorem push (hR : Resizing R) (hw : R w w') (h : Resized R l l') :
    Resized R (l.push w) (l'.push w') := by
  rw [Resized, Levels.opened_push, Levels.opened_push]
  simp only [hR.lt_iff (h.top hR) hw]
  split
  · exact .cons hw h
  · exact h

theorem fit (hR : Resizing R) (hw : R w w') (h : Resized R l l') :
    Resized R (l.fit w) (l'.fit w') := by
  rw [Levels.fit, Levels.fit]
  simp only [hR.lt_iff (h.top hR) hw]
  split
  · exact h.push hR hw
  · exact (h.closed_kept hR hw).2

end Levels.Resized

namespace Unplaced

/-- Tokens that are the same but for the widths of the levels. -/
structure Resized (R : UInt16 → UInt16 → Prop) (t t' : Unplaced) : Prop where
  kind : t'.kind = t.kind
  text : t'.text = t.text
  levels : List.Forall₂ R t.levels t'.levels

variable {l l' : Levels} {w w' : UInt16} {closed closed' kept kept' : List UInt16}

theorem resized_mark (hR : Resizing R) (m : Mark) (h : l.Resized R l') :
    Resized R (mark m l) (mark m l') := ⟨rfl, rfl, h.toList hR⟩

theorem resized_dedents (hclosed : List.Forall₂ R closed closed')
    (hkept : List.Forall₂ R kept kept') :
    List.Forall₂ (Resized R) (dedents closed kept) (dedents closed' kept') := by
  induction hclosed with
  | nil => exact .nil
  | cons _ hclosed ih =>
      rw [dedents_cons, dedents_cons]
      exact .cons ⟨rfl, rfl, List.rel_reverse (List.rel_append hclosed hkept)⟩ ih

theorem resized_closing (hR : Resizing R) (h : l.Resized R l') :
    List.Forall₂ (Resized R) (closing l) (closing l') :=
  resized_dedents h (.cons hR.base .nil)

theorem resized_marks (hR : Resizing R) (hw : R w w') (h : l.Resized R l') :
    List.Forall₂ (Resized R) (marks w l) (marks w' l') := by
  by_cases hlt : l.top < w
  · rw [marks_of_lt hlt, marks_of_lt ((hR.lt_iff (h.top hR) hw).2 hlt)]
    exact .cons (resized_mark hR .indent (h.push hR hw)) .nil
  · have hle : w' ≤ l'.top := by
      rw [← UInt16.not_lt, hR.lt_iff (h.top hR) hw]
      exact hlt
    obtain ⟨hclosed, hkept⟩ := h.closed_kept hR hw
    rw [marks_of_le (UInt16.not_lt.1 hlt), marks_of_le hle]
    exact resized_dedents hclosed (List.rel_append hkept (.cons hR.base .nil))

end Unplaced

/-! ### The text behind a line feed -/

/-- The second text is the first with other numbers of spaces behind its line feeds. Behind those
spaces a line goes on with what ends a margin, or with the next line feed. -/
inductive Reindented (R : UInt16 → UInt16 → Prop) : List Char → List Char → Prop where
  | nil : Reindented R [] []
  | keep {c : Char} (hc : c ≠ '\n') {text text' : List Char} (h : Reindented R text text') :
      Reindented R (c :: text) (c :: text')
  | line {spaces spaces' : Nat} (hwidth : R (columns spaces 0) (columns spaces' 0))
      {text text' : List Char}
      (hbody : ∀ c ∈ text.head?, c ≠ ' ' ∧ c ≠ '\t' ∧ c ≠ '\r') (h : Reindented R text text') :
      Reindented R ('\n' :: (margin spaces 0 ++ text)) ('\n' :: (margin spaces' 0 ++ text'))

namespace Reindented

variable {text text' taken rest rest' : List Char} {skipComments : Bool}

theorem of_cons {c : Char} (hc : c ≠ '\n') (h : Reindented R (c :: rest) text') :
    ∃ rest', text' = c :: rest' ∧ Reindented R rest rest' := by
  cases h with
  | keep _ h => exact ⟨_, rfl, h⟩
  | line => exact absurd rfl hc

theorem append_left (htaken : ∀ c ∈ taken, c ≠ '\n') (h : Reindented R rest rest') :
    Reindented R (taken ++ rest) (taken ++ rest') := by
  induction taken with
  | nil => exact h
  | cons c taken ih =>
      rw [List.forall_mem_cons] at htaken
      exact .keep htaken.1 (ih htaken.2)

theorem of_append (htaken : ∀ c ∈ taken, c ≠ '\n') (h : Reindented R (taken ++ rest) text') :
    ∃ rest', text' = taken ++ rest' ∧ Reindented R rest rest' := by
  induction taken generalizing text' with
  | nil => exact ⟨text', rfl, h⟩
  | cons c taken ih =>
      rw [List.forall_mem_cons] at htaken
      obtain ⟨text', rfl, htail⟩ := h.of_cons htaken.1
      obtain ⟨rest', rfl, hrest⟩ := ih htaken.2 htail
      exact ⟨rest', rfl, hrest⟩

theorem head?_eq (h : Reindented R text text') : text'.head? = text.head? := by
  cases h with
  | nil => rfl
  | keep => rfl
  | line => rfl

theorem startsComment_eq (h : Reindented R text text') :
    startsComment text' = startsComment text := by
  rw [Bool.eq_iff_iff, startsComment_iff, startsComment_iff]
  cases h with
  | nil => rfl
  | line => simp
  | keep _ h =>
      cases h with
      | nil => rfl
      | keep => simp
      | line => simp

theorem endsLine_iff (h : Reindented R text text') : EndsLine text' ↔ EndsLine text := by
  cases h with
  | nil => rfl
  | keep => rw [endsLine_cons_iff, endsLine_cons_iff]
  | line => exact iff_of_true (.inr ⟨_, rfl⟩) (.inr ⟨_, rfl⟩)

theorem endsContent_iff (h : Reindented R text text') :
    EndsContent skipComments text' ↔ EndsContent skipComments text := by
  have hcomment := h.startsComment_eq
  cases h with
  | nil => rfl
  | keep => rw [endsContent_cons_iff, endsContent_cons_iff, hcomment]
  | line => rw [endsContent_cons_iff, endsContent_cons_iff, hcomment]

/-- A line break measures widths that stand for each other, those of the last lines that it takes. -/
theorem exists_break (h : Reindented R ('\n' :: text) text') :
    ∃ taken rest spaces taken' rest' spaces', text = taken ++ rest ∧ text' = '\n' :: taken' ++ rest' ∧
      LongestBreak ('\n' :: taken) rest spaces 0 ∧ LongestBreak ('\n' :: taken') rest' spaces' 0 ∧
      R (columns spaces 0) (columns spaces' 0) ∧ Reindented R rest rest' := by
  generalize hlines : '\n' :: text = lines at h
  induction h generalizing text with
  | nil => cases hlines
  | keep hc => exact absurd (List.cons_eq_cons.1 hlines).1.symm hc
  | @line n n' hwidth body body' hbody h ih =>
      obtain ⟨-, rfl⟩ := List.cons_eq_cons.1 hlines
      by_cases hnext : body.head? = some '\n'
      · -- The line is blank, and the line break goes on with the next one.
        obtain ⟨cs, rfl⟩ := List.head?_eq_some_iff.1 hnext
        obtain ⟨taken, rest, s, taken', rest', s', rfl, rfl, hbreak, hbreak', hw, hrest⟩ := ih rfl
        obtain ⟨hmargins, hends⟩ := longestBreak_iff.1 hbreak
        obtain ⟨hmargins', hends'⟩ := longestBreak_iff.1 hbreak'
        refine ⟨margin n 0 ++ '\n' :: taken, rest, s, margin n' 0 ++ '\n' :: taken', rest', s',
          by simp, by simp, ?_, ?_, hw, hrest⟩
        · exact longestBreak_iff.2 ⟨.blank n 0 (.inl rfl) hmargins, hends⟩
        · exact longestBreak_iff.2 ⟨.blank n' 0 (.inl rfl) hmargins', hends'⟩
      · have hends : EndsBreak 0 body := by
          intro c hc
          obtain ⟨hspace, htab, hreturn⟩ := hbody c hc
          refine ⟨htab, ?_, hreturn, fun hc => absurd hc hspace⟩
          rintro rfl
          exact hnext hc
        have hends' : EndsBreak 0 body' := by
          rw [EndsBreak, h.head?_eq]
          exact hends
        exact ⟨margin n 0, body, n, margin n' 0, body', n', rfl, rfl,
          longestBreak_iff.2 ⟨.last n 0, hends⟩, longestBreak_iff.2 ⟨.last n' 0, hends'⟩, hwidth, h⟩

/-- Read with the same levels open but for their widths, such texts give the same tokens but for the
widths of the levels. -/
theorem unplaced (hR : Resizing R) (capacity : Nat) (skipComments : Bool) {l l' : Levels}
    (h : Reindented R text text') (hl : l.Resized R l') :
    List.Forall₂ (Unplaced.Resized R) (Session.unplaced capacity skipComments text l)
      (Session.unplaced capacity skipComments text' l') := by
  induction text using reading_induction skipComments generalizing text' l l' with
  | nil =>
      cases h
      rw [Session.unplaced_nil, Session.unplaced_nil]
      exact Unplaced.resized_closing hR hl
  | lineBreak margins rest s t hbreak ih =>
      obtain ⟨taken, behind, s₁, taken', rest', s', htext, rfl, hfirst, hsecond, hw, hrest⟩ :=
        h.exists_break
      obtain ⟨hmargins, rfl, rfl, rfl⟩ := hbreak.unique hfirst (congrArg ('\n' :: ·) htext)
      rw [Session.unplaced_of_break hbreak, Session.unplaced_of_break hsecond]
      refine .cons (Unplaced.resized_mark hR .newline hl) ?_
      exact List.rel_append (Unplaced.resized_marks hR hw hl) (ih hrest (hl.fit hR hw))
  | separator c rest hseparator hc ih =>
      obtain ⟨rest', rfl, hrest⟩ := h.of_cons hc
      rw [Session.unplaced_of_separator _ l hseparator hc,
        Session.unplaced_of_separator _ l' hseparator hc]
      exact ih hrest hl
  | comment taken rest hskip hstart htaken ih =>
      have hboth := h.startsComment_eq
      rw [startsComment_iff.2 hstart, startsComment_iff] at hboth
      obtain ⟨hends, hfree⟩ := upTo_endsLine_iff.1 htaken
      obtain ⟨rest', rfl, hrest⟩ := h.of_append hfree
      have htaken' : UpTo EndsLine taken rest' :=
        upTo_endsLine_iff.2 ⟨hrest.endsLine_iff.2 hends, hfree⟩
      rw [Session.unplaced_of_comment l hskip hstart htaken,
        Session.unplaced_of_comment l' hskip hboth htaken']
      exact ih hrest hl
  | content taken rest hne htaken ih =>
      have hfree := htaken.forall_ne_lineFeed
      obtain ⟨rest', rfl, hrest⟩ := h.of_append hfree
      have htaken' : UpTo (EndsContent skipComments) taken rest' :=
        htaken.congr fun back hback =>
          (hrest.append_left fun c hc => hfree c (hback.mem hc)).endsContent_iff
      rw [Session.unplaced_of_content l hne htaken, Session.unplaced_of_content l' hne htaken']
      exact .cons ⟨rfl, rfl, hl.toList hR⟩ (ih hrest hl)

end Reindented

/-! ### Lines -/

/-- The parts of a text before, between and behind its line feeds. -/
def lines (text : List Char) : List (List Char) := text.splitOn '\n'

namespace Line

def leading (line : List Char) : Nat := (line.takeWhile (· = ' ')).length

def body (line : List Char) : List Char := line.dropWhile (· = ' ')

/-- The line with another number of leading spaces. -/
def reindent (f : Nat → Nat) (line : List Char) : List Char :=
  margin (f (leading line)) 0 ++ body line

theorem margin_append_body (line : List Char) : margin (leading line) 0 ++ body line = line := by
  have hspaces : line.takeWhile (· = ' ') = List.replicate (leading line) ' ' :=
    List.eq_replicate_iff.2 ⟨rfl, fun c hc => by simpa using List.mem_takeWhile_imp hc⟩
  rw [margin, List.replicate_zero, List.append_nil, ← hspaces]
  exact List.takeWhile_append_dropWhile

theorem mem_of_mem_body {line : List Char} {c : Char} (h : c ∈ body line) : c ∈ line :=
  (List.dropWhile_suffix _).mem h

theorem ne_space_of_mem_head?_body {line : List Char} {c : Char} (h : c ∈ (body line).head?) :
    c ≠ ' ' := by
  have hnot := List.head?_dropWhile_not (· = ' ') line
  rw [← body, Option.mem_def.1 h] at hnot
  simpa using hnot

end Line

/-- The text in which each line has a number of leading spaces that depends on the old one. -/
def reindent (f : Nat → Nat) (text : List Char) : List Char :=
  ['\n'].intercalate ((lines text).map (Line.reindent f))

/-- A text whose first line is left out: each of the others behind a line feed. -/
def behindLineFeeds (ls : List (List Char)) : List Char := ls.flatMap ('\n' :: ·)

theorem intercalate_cons (line : List Char) (ls : List (List Char)) :
    ['\n'].intercalate (line :: ls) = line ++ behindLineFeeds ls := by
  induction ls generalizing line with
  | nil => simp [behindLineFeeds]
  | cons next ls ih =>
      rw [List.intercalate_cons_cons, ih, behindLineFeeds, behindLineFeeds, List.flatMap_cons]
      simp

theorem exists_lines (text : List Char) :
    ∃ first ls, lines text = first :: ls ∧ text = first ++ behindLineFeeds ls := by
  obtain ⟨first, ls, hlines⟩ := List.exists_cons_of_ne_nil (List.splitOn_ne_nil '\n' text)
  refine ⟨first, ls, hlines, ?_⟩
  rw [← intercalate_cons, ← hlines]
  exact (List.intercalate_splitOn '\n').symm

theorem mem_of_mem_lines {text line : List Char} (h : line ∈ lines text) :
    ∀ c ∈ line, c ∈ text ∧ c ≠ '\n' := by
  induction text generalizing line with
  | nil =>
      obtain rfl := List.mem_singleton.1 h
      simp
  | cons d text ih =>
      have hbehind {line : List Char} (h : line ∈ lines text) :
          ∀ c ∈ line, c ∈ d :: text ∧ c ≠ '\n' := fun c hc =>
        ⟨List.mem_cons_of_mem d (ih h c hc).1, (ih h c hc).2⟩
      rw [lines, List.splitOn_cons_eq_if_modifyHead, ← lines] at h
      split at h
      · rcases List.mem_cons.1 h with rfl | h
        · simp
        · exact hbehind h
      · rename_i hd
        obtain ⟨first, ls, hlines⟩ := List.exists_cons_of_ne_nil (List.splitOn_ne_nil '\n' text)
        rw [← lines] at hlines
        rw [hlines, List.modifyHead_cons] at h
        rcases List.mem_cons.1 h with rfl | h
        · refine List.forall_mem_cons.2 ⟨⟨List.mem_cons_self, by simpa using hd⟩, hbehind ?_⟩
          rw [hlines]
          exact List.mem_cons_self
        · apply hbehind
          rw [hlines]
          exact List.mem_cons_of_mem first h

namespace Reindented

variable {f : Nat → Nat} {ls : List (List Char)}

theorem behindLineFeeds (hfree : ∀ line ∈ ls, ∀ c ∈ line, c ≠ '\n' ∧ c ≠ '\r')
    (htab : ∀ line ∈ ls, (Line.body line).head? ≠ some '\t')
    (hwidth : ∀ line ∈ ls,
      R (columns (Line.leading line) 0) (columns (f (Line.leading line)) 0)) :
    Reindented R (behindLineFeeds ls) (behindLineFeeds (ls.map (Line.reindent f))) := by
  induction ls with
  | nil => exact .nil
  | cons line ls ih =>
      rw [List.forall_mem_cons] at hfree htab hwidth
      have hbehind := ih hfree.2 htab.2 hwidth.2
      have hbodyFree : ∀ c ∈ Line.body line, c ≠ '\n' ∧ c ≠ '\r' := fun c hc =>
        hfree.1 c (Line.mem_of_mem_body hc)
      have hbody : ∀ c ∈ (Line.body line ++ Offside.behindLineFeeds ls).head?,
          c ≠ ' ' ∧ c ≠ '\t' ∧ c ≠ '\r' := by
        intro c hc
        cases hline : Line.body line with
        | nil =>
            rw [hline] at hc
            cases ls with
            | nil => cases hc
            | cons =>
                obtain rfl : '\n' = c := by simpa [Offside.behindLineFeeds] using hc
                decide
        | cons d rest =>
            have hhead : (Line.body line).head? = some c := by
              rw [hline] at hc ⊢
              exact hc
            refine ⟨Line.ne_space_of_mem_head?_body hhead, ?_, ?_⟩
            · rintro rfl
              exact htab.1 hhead
            · exact (hbodyFree c (List.mem_of_mem_head? hhead)).2
      have hline := Reindented.line hwidth.1 hbody
        (hbehind.append_left fun c hc => (hbodyFree c hc).1)
      rw [← List.append_assoc, ← List.append_assoc, Line.margin_append_body] at hline
      exact hline

end Reindented

/-- The same token, but that the levels have the widths that the function gives them. -/
structure Unplaced.ResizedBy (f : Nat → Nat) (t t' : Unplaced) : Prop where
  kind : t'.kind = t.kind
  text : t'.text = t.text
  levels : t'.levels.map UInt16.toNat = t.levels.map fun w => f w.toNat

theorem toNat_columns {spaces : Nat} (h : spaces ≤ 65535) : (columns spaces 0).toNat = spaces := by
  rw [columns, UInt16.toNat_ofNat', Nat.mul_zero, Nat.add_zero, Nat.min_eq_right h,
    Nat.mod_eq_of_lt (Nat.lt_succ_of_le h)]

/-- A width and the one that a function gives it, for the widths of a set. -/
def Gives (f : Nat → Nat) (widths : Set Nat) (w w' : UInt16) : Prop :=
  w.toNat ∈ widths ∧ w'.toNat = f w.toNat

theorem resizing_gives {f : Nat → Nat} {widths : Set Nat} (hbase : 0 ∈ widths) (hzero : f 0 = 0)
    (hmono : StrictMonoOn f widths) : Resizing (Gives f widths) where
  base := ⟨hbase, hzero.symm⟩
  lt_iff := by
    rintro a a' b b' ⟨ha, ha'⟩ ⟨hb, hb'⟩
    rw [UInt16.lt_iff_toNat_lt, UInt16.lt_iff_toNat_lt, ha', hb', hmono.lt_iff_lt ha hb]

theorem Unplaced.Resized.resizedBy {f : Nat → Nat} {widths : Set Nat} {t t' : Unplaced}
    (h : Resized (Gives f widths) t t') : ResizedBy f t t' := by
  refine ⟨h.kind, h.text, ?_⟩
  have hlevels := h.levels
  generalize t.levels = levels, t'.levels = levels' at hlevels ⊢
  induction hlevels with
  | nil => rfl
  | cons hw _ ih => rw [List.map_cons, List.map_cons, hw.2, ih]

/-- The widths of the base and of the given lines. -/
def openWidths (ls : List (List Char)) : Set Nat := {n | n = 0 ∨ ∃ line ∈ ls, Line.leading line = n}

theorem strictMonoOn_openWidths {f : Nat → Nat} {ls : List (List Char)} (hzero : f 0 = 0)
    (hmono : ∀ a ∈ ls, ∀ b ∈ ls, Line.leading a < Line.leading b →
      f (Line.leading a) < f (Line.leading b))
    (hbase : ∀ line ∈ ls, 0 < Line.leading line → 0 < f (Line.leading line)) :
    StrictMonoOn f (openWidths ls) := by
  rintro m (rfl | ⟨a, ha, rfl⟩) n (rfl | ⟨b, hb, rfl⟩) hlt
  · exact absurd hlt (Nat.lt_irrefl 0)
  · rw [hzero]
    exact hbase b hb hlt
  · exact absurd hlt (Nat.not_lt_zero _)
  · exact hmono a ha b hb hlt

/-- Spaces at the head of a document are separators, as no line feed stands before them. -/
theorem lexUnplaced_margin_append (capacity : Nat) (skipComments : Bool) (spaces : Nat)
    (rest : List Char) :
    lexUnplaced ⟨.full, false, capacity, skipComments⟩ (margin spaces 0 ++ rest) =
      Session.unplaced capacity skipComments rest .base := by
  refine Session.unplaced_of_separators rest .base fun c hc => ?_
  rw [margin, List.replicate_zero, List.append_nil] at hc
  rw [List.eq_of_mem_replicate hc]
  decide

open Line

/-- **Only the order of the widths matters.** Where the lines get other numbers of leading spaces in
the same order, the tokens are of the same kinds and each level has the width that stands for its
old one. A line wider than the base must stay so. -/
theorem lexUnplaced_reindent (capacity : Nat) (skipComments : Bool) (text : List Char) (f : Nat → Nat)
    (hreturn : '\r' ∉ text)
    (htab : ∀ line ∈ lines text, (body line).head? ≠ some '\t')
    (hspaces : ∀ line ∈ lines text, leading line ≤ 65535)
    (hzero : f 0 = 0)
    (hmono : ∀ a ∈ lines text, ∀ b ∈ lines text,
      leading a < leading b → f (leading a) < f (leading b))
    (hwidth : ∀ line ∈ lines text, f (leading line) ≤ 65535)
    (hbase : ∀ line ∈ (lines text).tail, 0 < leading line → 0 < f (leading line)) :
    let config : Config := ⟨.full, false, capacity, skipComments⟩
    List.Forall₂ (Unplaced.ResizedBy f) (lexUnplaced config text)
      (lexUnplaced config (reindent f text)) := by
  intro config
  have hfree : ∀ line ∈ lines text, ∀ c ∈ line, c ≠ '\n' ∧ c ≠ '\r' := by
    intro line hline c hc
    obtain ⟨hmem, hc⟩ := mem_of_mem_lines hline c hc
    exact ⟨hc, fun hreturns => hreturn (hreturns ▸ hmem)⟩
  obtain ⟨first, ls, hlines, htext⟩ := exists_lines text
  have htail {line : List Char} (h : line ∈ ls) : line ∈ lines text := by
    rw [hlines]
    exact List.mem_cons_of_mem first h
  rw [hlines, List.tail_cons] at hbase
  let R := Gives f (openWidths ls)
  have hR : Resizing R := by
    refine resizing_gives (.inl rfl) hzero (strictMonoOn_openWidths hzero ?_ hbase)
    exact fun a ha b hb => hmono a (htail ha) b (htail hb)
  have hgives : ∀ line ∈ ls, R (columns (leading line) 0) (columns (f (leading line)) 0) := by
    intro line hline
    have hold := toNat_columns (hspaces line (htail hline))
    have hnew := toNat_columns (hwidth line (htail hline))
    exact ⟨.inr ⟨line, hline, hold.symm⟩, by rw [hold, hnew]⟩
  have hbehind : Reindented R (behindLineFeeds ls) (behindLineFeeds (ls.map (Line.reindent f))) :=
    .behindLineFeeds (fun line hline => hfree line (htail hline))
      (fun line hline => htab line (htail hline)) hgives
  have hfirst : ∀ c ∈ body first, c ≠ '\n' := by
    intro c hc
    have hmem : first ∈ lines text := by
      rw [hlines]
      exact List.mem_cons_self
    exact (hfree first hmem c (mem_of_mem_body hc)).1
  have hold : lexUnplaced config text =
      Session.unplaced capacity skipComments (body first ++ behindLineFeeds ls) .base := by
    rw [htext, ← lexUnplaced_margin_append _ _ (leading first), ← List.append_assoc,
      margin_append_body]
  rw [hold, reindent, hlines, List.map_cons, intercalate_cons, Line.reindent, List.append_assoc,
    lexUnplaced_margin_append]
  refine ((hbehind.append_left hfirst).unplaced hR capacity skipComments .base).imp ?_
  exact fun t t' h => h.resizedBy

/-- A blank line, a line that closes a level for one that was never opened, and a comment. -/
theorem lexUnplaced_reindent_blocks :
    let f := fun n => n * n
    let text := "  a\n    b\n \n  c\n  d // e\nf".toList
    (∀ a ∈ lines text, ∀ b ∈ lines text, leading a < leading b → f (leading a) < f (leading b)) ∧
      (∀ line ∈ (lines text).tail, 0 < leading line → 0 < f (leading line)) ∧
      List.Forall₂ (Unplaced.ResizedBy f) (lexUnplaced {} text)
        (lexUnplaced {} (reindent f text)) := by
  intro f text
  have hmono : ∀ a ∈ lines text, ∀ b ∈ lines text,
      leading a < leading b → f (leading a) < f (leading b) := by decide +kernel
  have hbase : ∀ line ∈ (lines text).tail, 0 < leading line → 0 < f (leading line) := by
    decide +kernel
  exact ⟨hmono, hbase, lexUnplaced_reindent Saved.bufferSize true text f (by decide +kernel)
    (by decide +kernel) (by decide +kernel) rfl hmono (by decide +kernel) hbase⟩

/-- Where no line is as narrow as the base, the order of the widths of the lines does not keep a line
from becoming so. -/
theorem reindent_onto_base :
    let f := fun _ : Nat => 0
    let text := "  a\n  b".toList
    '\r' ∉ text ∧ (∀ line ∈ lines text, (body line).head? ≠ some '\t') ∧
      (∀ line ∈ lines text, leading line ≤ 65535) ∧ f 0 = 0 ∧
      (∀ a ∈ lines text, ∀ b ∈ lines text,
        leading a < leading b → f (leading a) < f (leading b)) ∧
      (∀ line ∈ lines text, f (leading line) ≤ 65535) ∧
      (lexUnplaced {} text).map (·.kind) =
        [.content, .mark .newline, .mark .indent, .content, .mark .dedent] ∧
      (lexUnplaced {} (reindent f text)).map (·.kind) = [.content, .mark .newline, .content] ∧
      ¬ List.Forall₂ (Unplaced.ResizedBy f) (lexUnplaced {} text)
        (lexUnplaced {} (reindent f text)) := by
  intro f text
  refine ⟨by decide +kernel, by decide +kernel, by decide +kernel, rfl, by decide +kernel,
    by decide +kernel, by decide +kernel, by decide +kernel, ?_⟩
  intro h
  exact absurd h.length_eq (by decide +kernel)

end Offside
