import Mathlib.Tactic.SplitIfs
import Offside.Proofs.Operations

/-! The scan of a reader that shows one character at a time and is moved by calls. Cursors and the
lexers of hosts are such readers, and what a scan over all their input says of them is what the scan
call by call does to them. -/

namespace Offside

/-- A reader that shows one character and can be moved over it. It may hold things that are no
character; they are not shown, and only the end of the input is said to be the end. -/
class Lookahead (κ : Type) where
  peek : κ → Option Char
  atEnd : κ → Bool
  /-- Moves over what comes next, which then stands before the token if it is to be skipped. -/
  advance : Bool → κ → κ
  markEnd : κ → κ
  /-- What layout sees of all that is left to read. -/
  glyphs : κ → List Glyph
  atEnd_iff : ∀ c, atEnd c = true ↔ glyphs c = []
  glyphs_of_peek : ∀ {c ch}, peek c = some ch →
    glyphs c = Glyph.ofChar ch :: glyphs (advance true c)
  peek_of_glyphs : ∀ {c ch gs}, Glyph.ofChar ch ≠ .other → glyphs c = Glyph.ofChar ch :: gs →
    peek c = some ch

namespace Lookahead

variable {κ : Type} [Lookahead κ]

def skip : Nat → κ → κ
  | 0, c => c
  | n + 1, c => skip n (advance true c)

theorem length_advance_lt {c : κ} {ch : Char} (h : peek c = some ch) :
    (glyphs (advance true c)).length < (glyphs c).length := by
  rw [glyphs_of_peek h, List.length_cons]
  exact Nat.lt_succ_self _

/-- No width is beyond what sixteen bits can say. -/
def widen (width columns : UInt16) : UInt16 := .ofNat (min (width.toNat + columns.toNat) 65535)

/-- Skips the given character as often as it comes, and widens at each. -/
def measureRun (ch : Char) (columns width : UInt16) (c : κ) : UInt16 × κ :=
  if _h : peek c = some ch then measureRun ch columns (widen width columns) (advance true c)
  else (width, c)
termination_by (glyphs c).length
decreasing_by exact length_advance_lt _h

/-- Skips the spaces at the start of a line and then the tabs. -/
def measureLine (c : κ) : UInt16 × κ :=
  let (width, c) := measureRun ' ' 1 0 c
  measureRun '\t' 4 width c

theorem length_measureRun_le (ch : Char) (columns width : UInt16) (c : κ) :
    (glyphs (measureRun ch columns width c).2).length ≤ (glyphs c).length := by
  fun_induction measureRun ch columns width c with
  | case1 width c h ih => exact Nat.le_trans ih (Nat.le_of_lt (length_advance_lt h))
  | case2 width c h => exact Nat.le_refl _

theorem length_measureLine_le (c : κ) : (glyphs (measureLine c).2).length ≤ (glyphs c).length :=
  Nat.le_trans (length_measureRun_le ..) (length_measureRun_le ..)

theorem length_measureLine_advance_lt {c : κ} (h : peek c = some '\n' ∨ peek c = some '\r') :
    (glyphs (measureLine (advance true c)).2).length < (glyphs c).length := by
  refine Nat.lt_of_le_of_lt (length_measureLine_le _) ?_
  rcases h with h | h
  · exact length_advance_lt h
  · exact length_advance_lt h

/-- Goes on from line to line until there is one that does not end after its blanks, and measures
only that. -/
def measureLines (width : UInt16) (c : κ) : UInt16 × κ :=
  if _h : peek c = some '\n' ∨ peek c = some '\r' then
    measureLines (measureLine (advance true c)).1 (measureLine (advance true c)).2
  else (width, c)
termination_by (glyphs c).length
decreasing_by exact length_measureLine_advance_lt _h

/-- One call of the scanner. A pending line goes first, then the end of the input, then a line
break. -/
def scan (accept : MarkSet) (s : State) (c : κ) : Option Mark × State × κ :=
  match s.settle accept with
  | (some m, t) => (some m, t, c)
  | (none, t) =>
    if atEnd c && accept.dedent && t.levels.isOpen then (some .dedent, t.close, c)
    else if peek c = some '\n' ∧ accept.newline = true then
      let (width, c) := measureLine (advance true c)
      let (width, c) := measureLines width c
      (some .newline, { t with pending := some width }, markEnd c)
    else (none, t, c)

/-! ### A line break, call by call -/

/-- Part of a line break has been read before the first reader and more of it before the second, and
nothing but that lies between them. -/
structure ReadsOn (b : LineBreak) (c : κ) (b' : LineBreak) (c' : κ) : Prop where
  skipped : ∃ n, c' = skip n c ∧ b'.length = b.length + n
  extend_eq : LineBreak.extend id b (glyphs c) = LineBreak.extend id b' (glyphs c')

variable {b b' b'' : LineBreak} {c c' c'' : κ}

theorem skip_add (m n : Nat) (c : κ) : skip (m + n) c = skip n (skip m c) := by
  induction m generalizing c with
  | zero => rw [Nat.zero_add, skip]
  | succ m ih => rw [Nat.add_right_comm, skip, skip, ih]

theorem ReadsOn.refl (b : LineBreak) (c : κ) : ReadsOn b c b c := ⟨⟨0, rfl, rfl⟩, rfl⟩

theorem ReadsOn.trans (h : ReadsOn b c b' c') (h' : ReadsOn b' c' b'' c'') :
    ReadsOn b c b'' c'' := by
  obtain ⟨m, rfl, hm⟩ := h.skipped
  obtain ⟨n, rfl, hn⟩ := h'.skipped
  exact ⟨⟨m + n, (skip_add m n c).symm, by omega⟩, h.extend_eq.trans h'.extend_eq⟩

/-- The break goes on over the character shown, if extending it by that character does. -/
theorem ReadsOn.of_peek {ch : Char} (h : peek c = some ch) (hlength : b'.length = b.length + 1)
    (hextend : ∀ gs, LineBreak.extend id b (Glyph.ofChar ch :: gs) = LineBreak.extend id b' gs) :
    ReadsOn b c b' (advance true c) :=
  ⟨⟨1, rfl, hlength⟩, by rw [glyphs_of_peek h, hextend]⟩

theorem widen_width (b : LineBreak) (columns : UInt16) (b' : LineBreak)
    (h : b'.spaces + 4 * b'.tabs = b.spaces + 4 * b.tabs + columns.toNat) :
    widen b.width columns = b'.width := by
  have hmin : min (b.spaces + 4 * b.tabs) 65535 < 2 ^ 16 := by omega
  rw [widen, LineBreak.width, LineBreak.width, h, UInt16.toNat_ofNat', Nat.mod_eq_of_lt hmin]
  congr 1
  omega

theorem measureRun_space (htabs : b.tabs = 0) (c : κ) :
    ∃ b', b'.tabs = 0 ∧ (measureRun ' ' 1 b.width c).1 = b'.width ∧
      ReadsOn b c b' (measureRun ' ' 1 b.width c).2 ∧
      peek (measureRun ' ' 1 b.width c).2 ≠ some ' ' := by
  induction hn : (glyphs c).length using Nat.strongRecOn generalizing b c with
  | ind n ih =>
      subst hn
      rw [measureRun]
      by_cases h : peek c = some ' '
      · rw [dif_pos h, widen_width b 1 ⟨b.length + 1, b.spaces + 1, 0⟩ (by simp [htabs])]
        obtain ⟨b', htabs', hwidth, hreads, hpeek⟩ :=
          @ih _ (length_advance_lt h) ⟨b.length + 1, b.spaces + 1, 0⟩ rfl (advance true c) rfl
        exact ⟨b', htabs', hwidth, .trans (.of_peek h rfl fun _ => if_pos htabs) hreads, hpeek⟩
      · rw [dif_neg h]
        exact ⟨b, htabs, rfl, .refl b c, h⟩

theorem measureRun_tab (b : LineBreak) (c : κ) :
    ∃ b', (measureRun '\t' 4 b.width c).1 = b'.width ∧
      ReadsOn b c b' (measureRun '\t' 4 b.width c).2 ∧
      peek (measureRun '\t' 4 b.width c).2 ≠ some '\t' ∧
      ((measureRun '\t' 4 b.width c).2 = c ∨ 0 < b'.tabs) ∧ b.tabs ≤ b'.tabs := by
  induction hn : (glyphs c).length using Nat.strongRecOn generalizing b c with
  | ind n ih =>
      subst hn
      rw [measureRun]
      by_cases h : peek c = some '\t'
      · rw [dif_pos h, widen_width b 4 ⟨b.length + 1, b.spaces, b.tabs + 1⟩ (by simp; omega)]
        obtain ⟨b', hwidth, hreads, hpeek, -, htabs⟩ :=
          ih _ (length_advance_lt h) ⟨b.length + 1, b.spaces, b.tabs + 1⟩ (advance true c) rfl
        dsimp only at htabs
        refine ⟨b', hwidth, .trans (.of_peek h rfl fun _ => rfl) hreads, hpeek, .inr ?_, ?_⟩
        · omega
        · omega
      · rw [dif_neg h]
        exact ⟨b, rfl, .refl b c, h, .inl rfl, Nat.le_refl _⟩

/-- No blank of the current line is left to be read. -/
def LineRead (b : LineBreak) (c : κ) : Prop :=
  peek c ≠ some '\t' ∧ (peek c = some ' ' → 0 < b.tabs)

theorem measureLine_readsOn {n : Nat} (c : κ) :
    ∃ b, (measureLine c).1 = b.width ∧ ReadsOn ⟨n, 0, 0⟩ c b (measureLine c).2 ∧
      LineRead b (measureLine c).2 := by
  obtain ⟨b, -, hwidth, hreads, hspace⟩ := measureRun_space (b := ⟨n, 0, 0⟩) rfl c
  change (measureRun ' ' 1 0 c).1 = b.width at hwidth
  change ReadsOn _ c b (measureRun ' ' 1 0 c).2 at hreads
  change peek (measureRun ' ' 1 0 c).2 ≠ some ' ' at hspace
  obtain ⟨b', hwidth', hreads', htab, hmoved, -⟩ := measureRun_tab b (measureRun ' ' 1 0 c).2
  rw [← hwidth] at hwidth' hreads' htab hmoved
  refine ⟨b', hwidth', hreads.trans hreads', htab, fun hpeek => ?_⟩
  rcases hmoved with h | h
  · exact absurd hpeek (h ▸ hspace)
  · exact h

theorem extend_of_lineRead (h : LineRead b c) (hbreak : ¬(peek c = some '\n' ∨ peek c = some '\r')) :
    LineBreak.extend id b (glyphs c) = b := by
  cases hglyphs : glyphs c with
  | nil => rfl
  | cons g gs =>
      rw [LineBreak.extend, id]
      cases g with
      | space =>
          have hpeek : peek c = some ' ' := peek_of_glyphs (by decide) hglyphs
          exact if_neg (Nat.pos_iff_ne_zero.1 (h.2 hpeek))
      | tab => exact absurd (peek_of_glyphs (by decide) hglyphs) h.1
      | lineFeed => exact absurd (.inl (peek_of_glyphs (by decide) hglyphs)) hbreak
      | carriageReturn => exact absurd (.inr (peek_of_glyphs (by decide) hglyphs)) hbreak
      | other => rfl

theorem measureLines_readsOn (h : LineRead b c) :
    ∃ b', (measureLines b.width c).1 = b'.width ∧
      ReadsOn b c b' (measureLines b.width c).2 ∧
      LineBreak.extend id b (glyphs c) = b' := by
  induction hn : (glyphs c).length using Nat.strongRecOn generalizing b c with
  | ind n ih =>
      subst hn
      rw [measureLines]
      by_cases hbreak : peek c = some '\n' ∨ peek c = some '\r'
      · rw [dif_pos hbreak]
        have hstep : ReadsOn b c ⟨b.length + 1, 0, 0⟩ (advance true c) := by
          rcases hbreak with h | h
          · exact .of_peek h rfl fun _ => rfl
          · exact .of_peek h rfl fun _ => rfl
        obtain ⟨b', hwidth, hreads, hline⟩ := measureLine_readsOn (n := b.length + 1) (advance true c)
        obtain ⟨b'', hwidth', hreads', hextend⟩ :=
          ih _ (length_measureLine_advance_lt hbreak) hline rfl
        rw [hwidth]
        have hall := (hstep.trans hreads).trans hreads'
        exact ⟨b'', hwidth', hall, ((hstep.trans hreads).extend_eq).trans hextend⟩
      · rw [dif_neg hbreak]
        exact ⟨b, rfl, .refl b c, extend_of_lineRead h hbreak⟩

theorem measureLines_measureLine (c : κ) :
    ∃ b n, LineBreak.read id (glyphs c) = b ∧ b.length = n + 1 ∧
      measureLines (measureLine c).1 (measureLine c).2 = (b.width, skip n c) := by
  obtain ⟨b, hwidth, hreads, hline⟩ := measureLine_readsOn (n := 1) c
  obtain ⟨b', hwidth', hreads', hextend⟩ := measureLines_readsOn hline
  rw [← hwidth] at hwidth' hreads'
  have hall := hreads.trans hreads'
  obtain ⟨n, hskip, hlength⟩ := hall.skipped
  refine ⟨b', n, hreads.extend_eq.trans hextend, hlength.trans (Nat.add_comm 1 n), ?_⟩
  rw [← hwidth', ← hskip]

/-- What an outcome says of a reader: only a line break moves it, and the end of its mark is said. -/
def answer (o : Outcome) (c : κ) : Option Mark × State × κ :=
  (o.mark, o.state,
    match o.mark with
    | some .newline => markEnd (skip o.consumed c)
    | _ => c)

/-- Call by call, a scan comes to what it says of all that is left. -/
theorem scan_eq (accept : MarkSet) (s : State) (c : κ) :
    scan accept s c = answer (Offside.scan id accept s (glyphs c)) c := by
  have hsettles := s.settles_settle accept
  rw [scan, Offside.scan]
  generalize s.settle accept = settled at hsettles ⊢
  obtain ⟨mark, t⟩ := settled
  cases mark with
  | some m =>
      cases hsettles with
      | opens => rfl
      | closes => rfl
  | none =>
      cases hglyphs : glyphs c with
      | nil =>
          have hpeek : peek c ≠ some '\n' := by
            intro h
            rw [glyphs_of_peek h] at hglyphs
            cases hglyphs
          dsimp only
          rw [(atEnd_iff c).2 hglyphs, Bool.true_and,
            if_neg (c := peek c = some '\n' ∧ accept.newline = true) (fun h => hpeek h.1)]
          by_cases hclose : (accept.dedent && t.levels.isOpen) = true
          · rw [if_pos hclose, if_pos hclose]
            rfl
          · rw [if_neg hclose, if_neg hclose]
            rfl
      | cons g gs =>
          have hend : atEnd c = false := by
            rw [Bool.eq_false_iff, Ne, atEnd_iff, hglyphs]
            exact List.cons_ne_nil g gs
          dsimp only
          rw [hend, Bool.false_and, Bool.false_and, if_neg Bool.false_ne_true]
          by_cases hbreak : peek c = some '\n' ∧ accept.newline = true
          · obtain ⟨hpeek, haccept⟩ := hbreak
            obtain ⟨rfl, rfl⟩ := List.cons_eq_cons.1 (hglyphs.symm.trans (glyphs_of_peek hpeek))
            obtain ⟨b, n, hread, hlength, hmeasure⟩ := measureLines_measureLine (advance true c)
            rw [if_pos ⟨hpeek, haccept⟩, haccept, if_pos (by decide), hread, hlength, hmeasure]
            rfl
          · have hglyph : ¬(accept.newline && decide (id g = .lineFeed)) = true := by
              intro h
              rw [Bool.and_eq_true, decide_eq_true_eq] at h
              have hlineFeed : glyphs c = Glyph.ofChar '\n' :: gs :=
                hglyphs.trans (congrArg (· :: gs) h.2)
              exact hbreak ⟨peek_of_glyphs (by decide) hlineFeed, h.1⟩
            rw [if_neg hbreak, if_neg hglyph]
            rfl

end Lookahead

/-! ### What layout sees of an input -/

theorem LineBreak.extend_map {α : Type} (glyph : α → Glyph) (b : LineBreak) (input : List α) :
    extend id b (input.map glyph) = extend glyph b input := by
  induction input generalizing b with
  | nil => rfl
  | cons c cs ih =>
      rw [List.map_cons, extend, extend, id]
      cases glyph c with
      | space => simp only [ih]
      | tab => exact ih _
      | lineFeed => exact ih _
      | carriageReturn => exact ih _
      | other => rfl

theorem scan_map {α : Type} (glyph : α → Glyph) (accept : MarkSet) (s : State) (input : List α) :
    scan id accept s (input.map glyph) = scan glyph accept s input := by
  rw [scan, scan]
  cases input with
  | nil => rfl
  | cons c cs =>
      simp only [List.map_cons, id, LineBreak.read, LineBreak.extend_map]

namespace Cursor

/-- Inside a character there is something that is not shown. -/
def glyphs (c : Cursor) : List Glyph :=
  match c.upcoming with
  | some rest => rest.map Glyph.ofChar
  | none => [.other]

theorem outcome_eq (accept : MarkSet) (s : State) (c : Cursor) :
    c.outcome accept s = Offside.scan id accept s c.glyphs := by
  rw [outcome, glyphs]
  cases c.upcoming with
  | none => rfl
  | some rest => exact (scan_map Glyph.ofChar accept s rest).symm

end Cursor

theorem Glyph.ofCode_inj {m n : Int} (hm : ofCode m ≠ .other) (h : ofCode n = ofCode m) :
    n = m := by
  revert hm h
  unfold ofCode
  split_ifs <;> simp_all

instance : Lookahead Cursor where
  peek := Cursor.lookahead
  atEnd := Cursor.atEnd
  advance := Cursor.advance
  markEnd := Cursor.markEnd
  glyphs := Cursor.glyphs
  atEnd_iff c := by
    rw [Cursor.atEnd, Cursor.glyphs]
    cases c.upcoming with
    | none => simp
    | some rest => simp
  glyphs_of_peek {c ch} h := by
    rw [Cursor.lookahead] at h
    cases hupcoming : c.upcoming with
    | none => simp [hupcoming] at h
    | some rest =>
        cases rest with
        | nil => simp [hupcoming] at h
        | cons d rest =>
            obtain rfl : d = ch := by simpa [hupcoming] using h
            simp only [Cursor.glyphs, Cursor.advance, hupcoming, List.map_cons]
  peek_of_glyphs {c ch gs} hother h := by
    rw [Cursor.glyphs] at h
    cases hupcoming : c.upcoming with
    | none =>
        rw [hupcoming] at h
        exact absurd (List.cons_eq_cons.1 h).1.symm hother
    | some rest =>
        rw [hupcoming] at h
        cases rest with
        | nil => cases h
        | cons d rest =>
            have hglyph := (List.cons_eq_cons.1 h).1
            have hcode := Glyph.ofCode_inj hother hglyph
            rw [Int.ofNat_inj, Char.toNat_inj] at hcode
            rw [Cursor.lookahead, hupcoming, hcode]
            rfl

namespace Host.Lexer

/-- The character with the given code point, if there is one. -/
def charOf? (n : Int) : Option Char :=
  if 0 ≤ n ∧ n.toNat.isValidChar then some (.ofNat n.toNat) else none

theorem charOf?_eq_some_iff {n : Int} {ch : Char} : charOf? n = some ch ↔ n = ch.toNat := by
  rw [charOf?]
  constructor
  · intro h
    split at h
    · rename_i hvalid
      obtain rfl := Option.some.inj h
      rw [Char.ofNat, dif_pos hvalid.2]
      exact (Int.toNat_of_nonneg hvalid.1).symm
    · cases h
  · rintro rfl
    rw [Int.toNat_natCast, if_pos ⟨Int.natCast_nonneg _, ch.valid⟩, Char.ofNat_toNat]

/-- At the end nothing is shown, whatever the host has there. -/
def peek (l : Lexer) : Option Char := if l.rest.isEmpty then none else charOf? l.lookahead

def glyphs (l : Lexer) : List Glyph := l.rest.map Glyph.ofCode

theorem peek_eq_some_iff {l : Lexer} {ch : Char} :
    l.peek = some ch ↔ ∃ rest, l.rest = (ch.toNat : Int) :: rest := by
  rw [peek, lookahead]
  cases l.rest with
  | nil => simp
  | cons n rest =>
      simp only [List.isEmpty_cons, Bool.false_eq_true, if_false, List.headD_cons,
        charOf?_eq_some_iff, List.cons.injEq, exists_and_left, exists_eq', and_true]

end Host.Lexer

instance : Lookahead Host.Lexer where
  peek := Host.Lexer.peek
  atEnd l := l.rest.isEmpty
  advance := Host.Lexer.advance
  markEnd := Host.Lexer.markEnd
  glyphs := Host.Lexer.glyphs
  atEnd_iff l := by rw [Host.Lexer.glyphs, List.isEmpty_iff, List.map_eq_nil_iff]
  glyphs_of_peek {l ch} h := by
    obtain ⟨rest, hrest⟩ := Host.Lexer.peek_eq_some_iff.1 h
    rw [Host.Lexer.glyphs, Host.Lexer.glyphs, Host.Lexer.advance, hrest]
    rfl
  peek_of_glyphs {l ch gs} hother h := by
    rw [Host.Lexer.glyphs] at h
    obtain ⟨n, rest, hrest, hglyph, -⟩ := List.map_eq_cons_iff.1 h
    rw [Glyph.ofCode_inj hother hglyph] at hrest
    exact Host.Lexer.peek_eq_some_iff.2 ⟨rest, hrest⟩

/-! ### Cursors and lexers, call by call -/

theorem Cursor.skip_eq (n : Nat) (c : Cursor) : c.skip n = Lookahead.skip n c := by
  induction n generalizing c with
  | zero => rfl
  | succ n ih => exact ih (c.advance true)

theorem Host.Lexer.skip_eq (n : Nat) (l : Lexer) : l.skip n = Lookahead.skip n l := by
  induction n generalizing l with
  | zero => rfl
  | succ n ih => exact ih (l.advance true)

/-- A mark other than a line break is found where the cursor stands. -/
theorem consumed_scan_of_ne_newline {α : Type} {glyph : α → Glyph} {accept : MarkSet} {s : State}
    {input : List α} (h : (scan glyph accept s input).mark ≠ some .newline) :
    (scan glyph accept s input).consumed = 0 := by
  have hcases := scanCases_scan glyph accept s input
  generalize scan glyph accept s input = o at h hcases
  cases hcases with
  | settled => rfl
  | ended => rfl
  | broken => exact absurd rfl h
  | declined => rfl

theorem Cursor.scan_eq_lookahead (accept : MarkSet) (s : State) (c : Cursor) :
    c.scan accept s = Lookahead.scan accept s c := by
  have hconsumed := @consumed_scan_of_ne_newline _ id accept s c.glyphs
  rw [scan, Lookahead.scan_eq, outcome_eq]
  change _ = Lookahead.answer (Offside.scan id accept s c.glyphs) c
  generalize Offside.scan id accept s c.glyphs = o at hconsumed ⊢
  by_cases hmark : o.mark = some .newline
  · rw [Lookahead.answer, behind, hmark, skip_eq]
    rfl
  · rw [Lookahead.answer, behind_of_still hmark (hconsumed hmark)]
    split
    · contradiction
    · rfl

/-- The number of a mark is left for the host when the scan is over. -/
def Host.Lexer.report : Option Mark × State × Lexer → Bool × State × Lexer
  | (none, s, l) => (false, s, l)
  | (some m, s, l) => (true, s, { l with resultSymbol := m.symbol })

theorem Host.Lexer.scan_eq_lookahead (accept : MarkSet) (s : State) (l : Lexer) :
    l.scan accept s = report (Lookahead.scan accept s l) := by
  have hconsumed := @consumed_scan_of_ne_newline _ Glyph.ofCode accept s l.rest
  rw [scan, Lookahead.scan_eq]
  change _ = report (Lookahead.answer (Offside.scan id accept s l.glyphs) l)
  rw [glyphs, scan_map]
  generalize Offside.scan Glyph.ofCode accept s l.rest = o at hconsumed ⊢
  obtain ⟨mark, t, n⟩ := o
  cases mark with
  | none => rfl
  | some m =>
      cases m with
      | newline =>
          rw [Lookahead.answer]
          dsimp only
          rw [behind, skip_eq]
          rfl
      | indent =>
          obtain rfl : n = 0 := hconsumed (by simp)
          rfl
      | dedent =>
          obtain rfl : n = 0 := hconsumed (by simp)
          rfl

end Offside
