import Offside.Proofs.ContentRuns
import Offside.Proofs.ScanCases
import Offside.Proofs.SessionRun

/-! The tokens that layout has no part in: content, and line breaks where they are accepted. They
depend on the text alone and not on which levels are open, and the content among them is all the
content of the text. -/

namespace Offside

open Outline

/-- The tokens that a text gives from a place on, whatever levels are open there. -/
def Place.textTokens (newline skipComments : Bool) : Place → List (Token.Kind × Span)
  | ⟨_, []⟩ => []
  | ⟨q, c :: cs⟩ =>
    if newline && c = '\n' then
      let behind := Place.skip ⟨q, c :: cs⟩ (LineBreak.read Glyph.ofChar cs).length
      (.mark .newline, ⟨behind.offset, behind.offset⟩) :: behind.textTokens newline skipComments
    else
      let behind := Place.skip ⟨q, c :: cs⟩ (Piece.atHead skipComments c cs).length
      match Piece.atHead skipComments c cs with
      | .content _ => (.content, ⟨q, behind.offset⟩) :: behind.textTokens newline skipComments
      | _ => behind.textTokens newline skipComments
termination_by p => p.rest.length
decreasing_by
  · have hread := (LineBreak.length_read Glyph.ofChar cs).1
    rw [rest_skip, List.length_drop, List.length_cons]
    omega
  all_goals
    have hpiece := (Piece.length_atHead skipComments c cs).1
    rw [rest_skip, List.length_drop, List.length_cons]
    omega

/-- The spans of the content among some tokens. -/
def contentOf (tokens : List (Token.Kind × Span)) : List Span :=
  (tokens.filter (·.1 = .content)).map (·.2)

namespace Session

/-- The content and the line breaks among the tokens of a session. -/
def textTokens (s : Session) : List (Token.Kind × Span) :=
  (s.drain.1.filter fun t => t.kind = .content ∨ t.kind = .mark .newline).map
    fun t => (t.kind, t.span)

def contentSpans (s : Session) : List Span :=
  (s.drain.1.filter (·.kind = .content)).map (·.span)

end Session

variable {newline skipComments : Bool} {p : Place} {c : Char} {cs : List Char}

namespace Place

theorem textTokens_of_nil (h : p.rest = []) : p.textTokens newline skipComments = [] := by
  obtain ⟨q, _⟩ := p
  subst h
  rw [textTokens]

theorem textTokens_of_break (h : p.rest = '\n' :: cs) :
    p.textTokens true skipComments =
      let behind := p.skip (LineBreak.read Glyph.ofChar cs).length
      (.mark .newline, ⟨behind.offset, behind.offset⟩) :: behind.textTokens true skipComments := by
  obtain ⟨q, _⟩ := p
  subst h
  rw [textTokens, if_pos (by simp)]

theorem textTokens_of_content (h : p.rest = c :: cs) (hc : newline = true → c ≠ '\n') {n : Nat}
    (hpiece : Piece.atHead skipComments c cs = .content n) :
    p.textTokens newline skipComments =
      (.content, ⟨p.offset, (p.skip n).offset⟩) :: (p.skip n).textTokens newline skipComments := by
  obtain ⟨q, _⟩ := p
  subst h
  rw [textTokens, if_neg (by simpa using hc), hpiece]
  rfl

theorem textTokens_of_dropped (h : p.rest = c :: cs) (hc : newline = true → c ≠ '\n')
    (hpiece : ∀ n, Piece.atHead skipComments c cs ≠ .content n) :
    p.textTokens newline skipComments =
      (p.skip (Piece.atHead skipComments c cs).length).textTokens newline skipComments := by
  obtain ⟨q, _⟩ := p
  subst h
  rw [textTokens, if_neg (by simpa using hc)]
  split
  · exact absurd ‹_› (hpiece _)
  · rfl

end Place

/-! ### The tokens of a session -/

namespace Session

theorem textTokens_of_token {s u : Session} {t : Token} (h : s.step = .token t u) :
    s.textTokens =
      if t.kind = .content ∨ t.kind = .mark .newline then (t.kind, t.span) :: u.textTokens
      else u.textTokens := by
  rw [textTokens, textTokens, drain_of_token h, List.filter_cons]
  split
  · rename_i hkind
    rw [if_pos (by simpa using hkind)]
    rfl
  · rename_i hkind
    rw [if_neg (by simpa using hkind)]

theorem textTokens_of_dropped {s u : Session} (h : s.step = .dropped u) :
    s.textTokens = u.textTokens := by
  rw [textTokens, textTokens, drain_of_dropped h]

theorem ne_lineFeed_of_declined {s : Session} {t : State} {k : Nat}
    (hscan : scan Glyph.ofChar s.config.accept s.held s.place.rest = ⟨none, t, k⟩)
    (hrest : s.place.rest = c :: cs) (hnewline : s.config.accept.newline = true) : c ≠ '\n' := by
  have hglyph := ne_lineFeed_of_scan_none hscan hrest hnewline
  rwa [Ne, Glyph.ofChar_eq_lineFeed_iff] at hglyph

/-- The state of a session has no part in its content and its line breaks. -/
theorem textTokens_eq (s : Session) :
    s.textTokens = s.place.textTokens s.config.accept.newline s.config.skipComments := by
  induction s using run_induction with
  | mark s m t n hscan hstep ih =>
      have hcases := scanCases_scan Glyph.ofChar s.config.accept s.held s.place.rest
      rw [hscan] at hcases
      rw [textTokens_of_token hstep, ih]
      cases hcases with
      | settled hsettles =>
          cases hsettles with
          | opens =>
              rw [if_neg (by simp), Place.skip_zero]
          | closes =>
              rw [if_neg (by simp), Place.skip_zero]
      | ended =>
          rw [if_neg (by simp), Place.skip_zero]
      | broken hsettles hinput haccept hglyph =>
          obtain rfl := Glyph.ofChar_eq_lineFeed_iff.1 hglyph
          rw [if_pos (.inr rfl), haccept, Place.textTokens_of_break hinput]
  | content s t k n c cs hscan hrest hpiece hstep ih =>
      rw [textTokens_of_token hstep, if_pos (.inl rfl), ih,
        Place.textTokens_of_content hrest (ne_lineFeed_of_declined hscan hrest) hpiece]
  | dropped s t k c cs hscan hrest hpiece hstep ih =>
      rw [textTokens_of_dropped hstep, ih,
        Place.textTokens_of_dropped hrest (ne_lineFeed_of_declined hscan hrest) hpiece]
  | finished s t k hscan hrest hstep =>
      rw [textTokens, drain_of_finished hstep, Place.textTokens_of_nil hrest]
      rfl

theorem contentSpans_eq (s : Session) : s.contentSpans = contentOf s.textTokens := by
  rw [contentSpans, contentOf, textTokens, List.filter_map, List.map_map, List.filter_filter]
  congr 1
  apply List.filter_congr
  intro t _
  simp +contextual

end Session

/-! ### The content among the tokens of a text -/

/-- Each piece adds what it holds: content a run, and anything else nothing. -/
theorem Place.contentRuns_textTokens (newline skipComments : Bool) {text : List Char} {p : Place}
    (h : at? text p.offset = some p) :
    ContentRuns text p.offset (markContent skipComments false p.rest)
      (contentOf (p.textTokens newline skipComments)) := by
  induction hn : p.rest.length using Nat.strongRecOn generalizing p with
  | ind n ih =>
      subst hn
      have hbehind {taken rest : List Char} (htext : p.rest = taken ++ rest) (hne : taken ≠ []) :
          ContentRuns text (p.offset + Text.byteLength taken) (markContent skipComments false rest)
            (contentOf ((p.skip taken.length).textTokens newline skipComments)) := by
        have hpos := List.length_pos_iff.2 hne
        have hlt : rest.length < p.rest.length := by
          rw [htext, List.length_append]
          omega
        have hplace := at?_skip h taken.length
        rw [skip_of_rest htext] at hplace ⊢
        exact ih _ hlt hplace rfl
      cases hrest : p.rest with
      | nil =>
          rw [textTokens_of_nil hrest]
          exact .nil text p.offset
      | cons c cs =>
          by_cases hbreak : newline = true ∧ c = '\n'
          · obtain ⟨rfl, rfl⟩ := hbreak
            rw [textTokens_of_break hrest]
            obtain ⟨taken, rest, rfl, hlength, hlongest⟩ := LineBreak.longestBreak_read cs
            rw [hlength]
            exact .of_dull (markContent_separators hlongest.forall_isSeparator)
              (hbehind hrest (List.cons_ne_nil _ _))
          have hc (hnewline : newline = true) (hc : c = '\n') : False := hbreak ⟨hnewline, hc⟩
          have hcases := pieceCases_atHead skipComments c cs
          generalize hpiece : Piece.atHead skipComments c cs = piece at hcases
          cases hcases with
          | separator htext hseparator =>
              obtain ⟨rfl, rfl⟩ := List.cons_eq_cons.1 htext
              have hseparators : ∀ d ∈ [c], isSeparator d = true := by simpa
              rw [textTokens_of_dropped hrest hc (by simp [hpiece]), hpiece]
              exact .of_dull (markContent_separators hseparators)
                (hbehind hrest (List.cons_ne_nil c []))
          | comment htext hne hskip hstart htaken =>
              rw [textTokens_of_dropped hrest hc (by simp [hpiece]), hpiece, htext]
              rw [htext] at hrest hstart
              exact .of_dull (markContent_comment hskip hstart htaken) (hbehind hrest hne)
          | @content taken rest htext hne htaken =>
              have hplace := skip_of_rest (hrest.trans htext)
              have hslice := slice?_skip h taken.length
              have hnext := hbehind (hrest.trans htext) hne
              rw [hrest, htext, List.take_left, hplace] at hslice
              rw [hplace] at hnext
              rw [textTokens_of_content hrest hc hpiece, htext, hplace]
              exact .of_content hne htaken hslice hnext

/-- **Layout never disturbs text.** Two sessions at one place that treat comments alike give the
same content, whatever else is different, and it is all the content of the text. They give the same
line breaks if both accept them or neither does. -/
theorem text_undisturbed {config₁ config₂ : Config}
    (hskip : config₁.skipComments = config₂.skipComments) (before rest : List Char)
    (s₁ s₂ : State) :
    let first : Session := ⟨config₁, ⟨Text.byteLength before, rest⟩, s₁⟩
    let second : Session := ⟨config₂, ⟨Text.byteLength before, rest⟩, s₂⟩
    first.contentSpans = second.contentSpans ∧
      (config₁.accept.newline = config₂.accept.newline → first.textTokens = second.textTokens) ∧
      ContentRuns (before ++ rest) (Text.byteLength before)
        (markContent config₁.skipComments false rest) first.contentSpans := by
  intro first second
  have hplace : Place.at? (before ++ rest) first.place.offset = some first.place :=
    Place.at?_eq_some_iff.2 ⟨rfl, before, rfl, rfl⟩
  have hruns (newline : Bool) :=
    first.place.contentRuns_textTokens newline config₁.skipComments hplace
  have hfirst : first.contentSpans =
      contentOf (first.place.textTokens config₁.accept.newline config₁.skipComments) := by
    rw [Session.contentSpans_eq, Session.textTokens_eq]
  have hsecond : second.contentSpans =
      contentOf (first.place.textTokens config₂.accept.newline config₁.skipComments) := by
    rw [Session.contentSpans_eq, Session.textTokens_eq, hskip]
  refine ⟨?_, ?_, ?_⟩
  · rw [hfirst, hsecond]
    exact (hruns _).unique (hruns _)
  · intro hnewline
    rw [Session.textTokens_eq, Session.textTokens_eq, hskip, hnewline]
  · rw [hfirst]
    exact hruns _

/-- One session loses its levels at every checkpoint; the other starts with two levels and a pending
width, and only ever accepts line breaks. -/
theorem text_undisturbed_two_configs :
    let config₁ : Config := { checkpoint := true, capacity := 4 }
    let config₂ : Config := { accept := ⟨true, false, false⟩ }
    let rest := [' ', 'é', '/', '/', 'x', '\n', '\t', 'b', '\n', 'c']
    let first : Session := ⟨config₁, ⟨2, rest⟩, .fresh⟩
    let second : Session := ⟨config₂, ⟨2, rest⟩, .ofParts [0, 2, 5] (some 7)⟩
    first.drain.1.length ≠ second.drain.1.length ∧
      first.contentSpans = second.contentSpans ∧ first.textTokens = second.textTokens ∧
      ContentRuns (['a', '\n'] ++ rest) 2 (markContent true false rest) first.contentSpans := by
  intro config₁ config₂ rest first second
  have hskip : config₁.skipComments = config₂.skipComments := rfl
  obtain ⟨hspans, htokens, hruns⟩ :=
    text_undisturbed hskip ['a', '\n'] rest .fresh (.ofParts [0, 2, 5] (some 7))
  exact ⟨by decide +kernel, hspans, htokens rfl, hruns⟩

end Offside
