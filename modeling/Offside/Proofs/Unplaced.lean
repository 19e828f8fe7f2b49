import Offside.Proofs.OutlineRun
import Offside.Proofs.Relocation

/-! The tokens of a text without their places: what they are, the levels behind them, and the text of
content. Read with the given levels open, they depend on the text alone, and are put together from
those of its parts. -/

namespace Offside

open Outline

/-- What is left of a token when its place is forgotten. -/
structure Unplaced where
  kind : Token.Kind
  levels : List UInt16
  /-- The text of content; none for a mark. -/
  text : List Char
  deriving DecidableEq

/-- A token of the given text, without its place. -/
def Token.unplaced (text : List Char) (t : Token) : Unplaced :=
  ⟨t.kind, t.levels,
    if t.kind = .content then (Text.slice? t.span.start t.span.stop text).getD [] else []⟩

/-- The tokens of a document without their places. -/
def lexUnplaced (config : Config) (text : List Char) : List Unplaced :=
  (lex config text).map (Token.unplaced text)

namespace Unplaced

def mark (m : Mark) (l : Levels) : Unplaced := ⟨.mark m, l.toList, []⟩

def dedents (closed kept : List UInt16) : List Unplaced :=
  (Outline.dedents 0 closed kept).map (Token.unplaced [])

/-- The marks that a line of the given width gives. -/
def marks (width : UInt16) (l : Levels) : List Unplaced :=
  (Outline.marksAt 0 width (l.opened ++ [0])).map (Token.unplaced [])

/-- The marks that the end of a text gives. -/
def closing (l : Levels) : List Unplaced := dedents l.opened [0]

theorem dedents_cons (w : UInt16) (closed kept : List UInt16) :
    dedents (w :: closed) kept =
      ⟨.mark .dedent, (closed ++ kept).reverse, []⟩ :: dedents closed kept := rfl

theorem map_dedents (text : List Char) (q : Nat) (closed kept : List UInt16) :
    (Outline.dedents q closed kept).map (Token.unplaced text) = dedents closed kept := by
  induction closed with
  | nil => rfl
  | cons w closed ih =>
      rw [Outline.dedents, List.map_cons, ih, dedents_cons]
      rfl

theorem map_marksAt (text : List Char) (q : Nat) (width : UInt16) (l : Levels) :
    (Outline.marksAt q width (l.opened ++ [0])).map (Token.unplaced text) = marks width l := by
  rw [marks, Outline.marksAt, Outline.marksAt]
  split
  · rfl
  · rw [map_dedents, map_dedents]

theorem kind_of_mem_dedents {closed kept : List UInt16} {t : Unplaced}
    (h : t ∈ dedents closed kept) : t.kind = .mark .dedent := by
  induction closed with
  | nil => cases h
  | cons w closed ih =>
      rcases List.mem_cons.1 h with rfl | h
      · rfl
      · exact ih h

theorem dedents_append (front back kept : List UInt16) :
    dedents (front ++ back) kept = dedents front (back ++ kept) ++ dedents back kept := by
  induction front with
  | nil => rfl
  | cons w front ih =>
      rw [List.cons_append, dedents_cons, ih, List.append_assoc, dedents_cons, List.cons_append]

theorem marks_of_lt {width : UInt16} {l : Levels} (h : l.top < width) :
    marks width l = [mark .indent (l.push width)] := by
  rw [marks, Outline.marksAt, Levels.headD_opened_append, if_pos h, mark, Levels.toList_eq,
    Levels.push_of_lt h]
  rfl

theorem marks_of_le {width : UInt16} {l : Levels} (h : width ≤ l.top) :
    marks width l = dedents (l.opened.takeWhile (width < ·)) ((l.within width).opened ++ [0]) := by
  rw [marks, Outline.marksAt, Levels.headD_opened_append, if_neg (UInt16.not_lt.2 h),
    Levels.takeWhile_opened_append, Levels.dropWhile_opened_append]
  rfl

/-- A line that opens no level only closes levels before the end does. -/
theorem marks_append_closing {width : UInt16} {l : Levels} (h : width ≤ l.top) :
    marks width l ++ closing (l.fit width) = closing l := by
  rw [marks_of_le h, Levels.fit, if_neg (UInt16.not_lt.2 h), closing, ← dedents_append, closing,
    Levels.opened_within, List.takeWhile_append_dropWhile]

theorem marks_append_closing_iff {width : UInt16} {l : Levels} :
    marks width l ++ closing (l.fit width) = closing l ↔ width ≤ l.top := by
  refine ⟨fun heq => ?_, marks_append_closing⟩
  by_contra hwider
  rw [UInt16.not_le] at hwider
  have hmem : mark .indent (l.push width) ∈ closing l := by
    rw [← heq, marks_of_lt hwider]
    exact List.mem_append_left _ (List.mem_singleton.2 rfl)
  cases kind_of_mem_dedents hmem

end Unplaced

/-! ### Texts that are read with some levels open -/

theorem Token.Relocated.unplaced_eq {text₁ text₂ : List Char} {shift : Int} {t₁ t₂ : Token}
    (h : Relocated text₁ text₂ shift t₁ t₂) : t₂.unplaced text₂ = t₁.unplaced text₁ := by
  rw [unplaced, unplaced, h.kind, h.levels]
  by_cases hkind : t₁.kind = .content
  · obtain ⟨run, -, hfirst, hsecond⟩ := h.content hkind
    rw [if_pos hkind, if_pos hkind, hfirst, hsecond]
  · rw [if_neg hkind, if_neg hkind]

theorem map_unplaced_of_relocated {text₁ text₂ : List Char} {shift : Int}
    {tokens₁ tokens₂ : List Token}
    (h : List.Forall₂ (Token.Relocated text₁ text₂ shift) tokens₁ tokens₂) :
    tokens₂.map (Token.unplaced text₂) = tokens₁.map (Token.unplaced text₁) := by
  induction h with
  | nil => rfl
  | cons ht _ ih => rw [List.map_cons, List.map_cons, ht.unplaced_eq, ih]

namespace Session

variable {capacity : Nat} {skipComments : Bool}

/-- The tokens of a text that is read with the given levels open, without their places. -/
def unplaced (capacity : Nat) (skipComments : Bool) (text : List Char) (l : Levels) :
    List Unplaced :=
  (plain capacity skipComments ⟨0, text⟩ ⟨l, none⟩).drain.1.map (Token.unplaced text)

theorem lexUnplaced_eq (text : List Char) :
    lexUnplaced ⟨.full, false, capacity, skipComments⟩ text =
      unplaced capacity skipComments text .base := rfl

/-- What is read behind a part of a text is read as a text of its own. -/
theorem map_unplaced_drain (before rest : List Char) (l : Levels) :
    (plain capacity skipComments ⟨0 + Text.byteLength before, rest⟩ ⟨l, none⟩).drain.1.map
        (Token.unplaced (before ++ rest)) =
      unplaced capacity skipComments rest l := by
  have hplace : Place.Alike rest (before ++ rest) (Text.byteLength before) ⟨0, rest⟩
      ⟨0 + Text.byteLength before, rest⟩ := by
    refine ⟨rfl, by simp, Place.at?_eq_some_iff.2 ⟨rfl, [], rfl, rfl⟩,
      Place.at?_eq_some_iff.2 ⟨rfl, before, rfl, (Nat.zero_add _).symm⟩⟩
  have hstep (s₁ s₂ : Session) (h : Alike rest (before ++ rest) (Text.byteLength before) s₁ s₂) :=
    h.step
  exact map_unplaced_of_relocated (drain_rel hstep ⟨rfl, rfl, hplace⟩)

theorem unplaced_nil (l : Levels) :
    unplaced capacity skipComments [] l = Unplaced.closing l := by
  rw [unplaced, drain_plain_end, Unplaced.map_dedents]
  rfl

theorem unplaced_of_break {taken rest : List Char} {spaces tabs : Nat}
    (h : LongestBreak taken rest spaces tabs) (l : Levels) :
    unplaced capacity skipComments (taken ++ rest) l =
      .mark .newline l :: (Unplaced.marks (columns spaces tabs) l ++
        unplaced capacity skipComments rest (l.fit (columns spaces tabs))) := by
  rw [unplaced, drain_plain_of_break 0 l h, drain_plain_of_pending, List.map_cons, List.map_append,
    Unplaced.map_marksAt, map_unplaced_drain, markAt_opened_append]
  rfl

theorem unplaced_of_separator {c : Char} (rest : List Char) (l : Levels)
    (hseparator : isSeparator c = true) (hc : c ≠ '\n') :
    unplaced capacity skipComments (c :: rest) l = unplaced capacity skipComments rest l := by
  rw [unplaced, drain_plain_of_separator 0 rest l hseparator hc]
  exact map_unplaced_drain [c] rest l

theorem unplaced_of_comment {taken rest : List Char} (l : Levels) (hskip : skipComments = true)
    (hstart : ∃ text, taken ++ rest = '/' :: '/' :: text) (htaken : UpTo EndsLine taken rest) :
    unplaced capacity skipComments (taken ++ rest) l = unplaced capacity skipComments rest l := by
  rw [unplaced, drain_plain_of_comment 0 l hskip hstart htaken, map_unplaced_drain]

theorem unplaced_of_content {taken rest : List Char} (l : Levels) (hne : taken ≠ [])
    (htaken : UpTo (EndsContent skipComments) taken rest) :
    unplaced capacity skipComments (taken ++ rest) l =
      ⟨.content, l.toList, taken⟩ :: unplaced capacity skipComments rest l := by
  have hslice : Text.slice? 0 (0 + Text.byteLength taken) (taken ++ rest) = some taken :=
    Text.slice?_eq_some_iff.2 ⟨[], rest, rfl, rfl, rfl⟩
  rw [unplaced, drain_plain_of_content 0 l hne htaken, List.map_cons, map_unplaced_drain,
    Token.unplaced, hslice]
  rfl

end Session

end Offside
