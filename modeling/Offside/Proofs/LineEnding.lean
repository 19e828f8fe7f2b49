import Offside.Proofs.SessionEnd
import Offside.Proofs.Unplaced

/-! Carriage returns before line feeds. The host drops such a carriage return, or a comment or a line
break takes it along, so that the tokens of a document are the same with it and without it but for
their places, whatever marks are accepted and whatever the checkpoints lose. -/

namespace Offside

open Outline

/-- The text with a carriage return before each line feed that stands at a chosen place. -/
def withReturns (chosen : Nat → Bool) (text : List Char) : List Char :=
  text.zipIdx.flatMap fun (c, i) => if c = '\n' && chosen i then ['\r', c] else [c]

/-- The second text is the first with a carriage return put before some of its line feeds. -/
inductive Returned : List Char → List Char → Prop where
  | nil : Returned [] []
  | keep (c : Char) {text text' : List Char} (h : Returned text text') :
      Returned (c :: text) (c :: text')
  | insert {text text' : List Char} (h : Returned text text') :
      Returned ('\n' :: text) ('\r' :: '\n' :: text')

namespace Returned

variable {text text' taken rest rest' : List Char} {skipComments : Bool}

theorem withReturns (chosen : Nat → Bool) (text : List Char) :
    Returned text (withReturns chosen text) := by
  rw [Offside.withReturns]
  generalize 0 = n
  induction text generalizing n with
  | nil => exact .nil
  | cons c text ih =>
      rw [List.zipIdx_cons, List.flatMap_cons]
      dsimp only
      split
      · rename_i hchosen
        obtain ⟨rfl, -⟩ : c = '\n' ∧ chosen n = true := by simpa using hchosen
        exact .insert (ih (n + 1))
      · exact .keep c (ih (n + 1))

/-! ### The parts of such a text -/

theorem append_left (taken : List Char) (h : Returned rest rest') :
    Returned (taken ++ rest) (taken ++ rest') := by
  induction taken with
  | nil => exact h
  | cons c taken ih => exact .keep c ih

theorem of_append (htaken : ∀ c ∈ taken, c ≠ '\n') (h : Returned (taken ++ rest) text') :
    ∃ rest', text' = taken ++ rest' ∧ Returned rest rest' := by
  induction taken generalizing text' with
  | nil => exact ⟨text', rfl, h⟩
  | cons c taken ih =>
      rw [List.forall_mem_cons] at htaken
      cases h with
      | keep _ h =>
          obtain ⟨rest', rfl, hrest⟩ := ih htaken.2 h
          exact ⟨rest', rfl, hrest⟩
      | insert h => exact absurd rfl htaken.1

theorem startsComment_eq (h : Returned text text') : startsComment text' = startsComment text := by
  rw [Bool.eq_iff_iff, startsComment_iff, startsComment_iff]
  cases h with
  | nil => rfl
  | keep c h =>
      cases h with
      | nil => rfl
      | keep d h => simp
      | insert h => simp
  | insert h => simp

theorem endsContent_iff (h : Returned text text') :
    EndsContent skipComments text' ↔ EndsContent skipComments text := by
  cases h with
  | nil => rfl
  | keep c h => rw [endsContent_cons_iff, endsContent_cons_iff, (keep c h).startsComment_eq]
  | insert h =>
      rw [endsContent_cons_iff, endsContent_cons_iff]
      exact iff_of_true rfl rfl

theorem endsBreak {tabs : Nat} (h : Returned rest rest') (hends : EndsBreak tabs rest) :
    EndsBreak tabs rest' := by
  cases h with
  | nil => exact hends
  | keep c h => exact endsBreak_cons.2 (endsBreak_cons.1 hends)
  | insert h => exact absurd rfl (endsBreak_cons.1 hends).2.1

/-- A line ends where it ended before, or at the carriage return. -/
theorem exists_upTo_endsLine (h : Returned rest rest') (htaken : UpTo EndsLine taken rest) :
    ∃ returns behind, rest' = returns ++ behind ∧ Returned rest behind ∧
      UpTo EndsLine (taken ++ returns) behind := by
  obtain ⟨hends, hfree⟩ := upTo_endsLine_iff.1 htaken
  cases h with
  | nil => exact ⟨[], [], rfl, .nil, by rwa [List.append_nil]⟩
  | @keep c rest rest' h =>
      refine ⟨[], c :: rest', rfl, .keep c h, upTo_endsLine_iff.2 ⟨?_, ?_⟩⟩
      · exact endsLine_cons_iff.2 (endsLine_cons_iff.1 hends)
      · rwa [List.append_nil]
  | @insert rest rest' h =>
      refine ⟨['\r'], '\n' :: rest', rfl, .keep '\n' h, upTo_endsLine_iff.2 ⟨.inr ⟨rest', rfl⟩, ?_⟩⟩
      refine List.forall_mem_append.2 ⟨hfree, ?_⟩
      simp

/-- The margins of a line break are the same but for the carriage returns between them, so that the
last one is the same. -/
theorem exists_margins {s t : Nat} (hmargins : Margins taken s t)
    (h : Returned (taken ++ rest) text') :
    ∃ taken' rest', text' = taken' ++ rest' ∧ Margins taken' s t ∧ Returned rest rest' := by
  have hfree (spaces tabs : Nat) : ∀ c ∈ margin spaces tabs, c ≠ '\n' := by
    intro c hc
    rcases List.mem_append.1 hc with h | h
    · rw [List.eq_of_mem_replicate h]
      decide
    · rw [List.eq_of_mem_replicate h]
      decide
  induction hmargins generalizing text' with
  | last s t =>
      obtain ⟨rest', rfl, hrest⟩ := h.of_append (hfree s t)
      exact ⟨margin s t, rest', rfl, .last s t, hrest⟩
  | @blank spaces tabs ending text s t hending _ ih =>
      rw [List.append_assoc, List.cons_append] at h
      obtain ⟨behind, rfl, hbehind⟩ := h.of_append (hfree spaces tabs)
      cases hbehind with
      | keep _ hnext =>
          obtain ⟨taken', rest', rfl, hm, hrest⟩ := ih hnext
          refine ⟨margin spaces tabs ++ ending :: taken', rest', by simp, ?_, hrest⟩
          exact .blank spaces tabs hending hm
      | insert hnext =>
          obtain ⟨taken', rest', rfl, hm, hrest⟩ := ih hnext
          refine ⟨margin spaces tabs ++ '\r' :: '\n' :: taken', rest', by simp, ?_, hrest⟩
          exact .blank spaces tabs (.inr rfl) (.blank 0 0 (.inl rfl) hm)

/-- A line break measures the same, and what is behind it is the same but for carriage returns. -/
theorem read (h : Returned text text') :
    let b := LineBreak.read Glyph.ofChar text
    let b' := LineBreak.read Glyph.ofChar text'
    b'.width = b.width ∧ Returned (('\n' :: text).drop b.length) (('\n' :: text').drop b'.length) := by
  obtain ⟨taken, rest, rfl, -, hbreak⟩ := LineBreak.longestBreak_read text
  obtain ⟨hmargins, hends⟩ := longestBreak_iff.1 hbreak
  obtain ⟨taken', rest', rfl, hmargins', hrest⟩ := h.exists_margins hmargins
  have hbreak' := longestBreak_iff.2 ⟨hmargins', hrest.endsBreak hends⟩
  intro b b'
  have hb' : b' = ⟨taken'.length + 1, b.spaces, b.tabs⟩ := LineBreak.read_of_longestBreak hbreak'
  have hb : b = ⟨taken.length + 1, b.spaces, b.tabs⟩ := LineBreak.read_of_longestBreak hbreak
  refine ⟨?_, ?_⟩
  · rw [hb']
    rfl
  · rw [hb', hb]
    simpa using hrest

/-! ### One scan and one piece -/

/-- Where both texts start alike, a scan gives the same mark and leaves the same state. -/
theorem scan (h : Returned text text') (hhead : text'.head? = text.head?) (accept : MarkSet)
    (s : State) :
    ∃ mark t n n', Offside.scan Glyph.ofChar accept s text = ⟨mark, t, n⟩ ∧
      Offside.scan Glyph.ofChar accept s text' = ⟨mark, t, n'⟩ ∧
      Returned (text.drop n) (text'.drop n') := by
  rcases hsettle : s.settle accept with ⟨mark, t⟩
  cases mark with
  | some m =>
      exact ⟨some m, t, 0, 0, scan_of_settle_some hsettle text, scan_of_settle_some hsettle text', h⟩
  | none =>
      cases h with
      | nil =>
          refine ⟨_, _, _, _, rfl, rfl, ?_⟩
          rw [List.drop_nil]
          exact .nil
      | @keep c text text' h =>
          rw [Offside.scan, Offside.scan, hsettle]
          dsimp only
          by_cases hbreak : (accept.newline && decide (Glyph.ofChar c = .lineFeed)) = true
          · rw [if_pos (by simpa using hbreak), if_pos (by simpa using hbreak)]
            rw [Bool.and_eq_true, decide_eq_true_eq, Glyph.ofChar_eq_lineFeed_iff] at hbreak
            obtain rfl := hbreak.2
            obtain ⟨hwidth, hrest⟩ := h.read
            refine ⟨_, _, _, _, rfl, ?_, hrest⟩
            rw [State.await, State.await, hwidth]
          · rw [if_neg (by simpa using hbreak), if_neg (by simpa using hbreak)]
            exact ⟨none, t, 0, 0, rfl, rfl, .keep c h⟩
      | insert h => cases hhead

/-- Where both texts start alike, they start with pieces of one kind. Content is the same, and only
a comment may take a carriage return along. -/
theorem piece (h : Returned text text') (skipComments : Bool) (c : Char) :
    ∃ taken rest taken' rest', c :: text = taken ++ rest ∧ c :: text' = taken' ++ rest' ∧
      Returned rest rest' ∧
      (taken' = taken ∧ Piece.atHead skipComments c text = .content taken.length ∧
          Piece.atHead skipComments c text' = .content taken.length ∨
        (∀ n, Piece.atHead skipComments c text ≠ .content n) ∧
          (∀ n, Piece.atHead skipComments c text' ≠ .content n) ∧
          (Piece.atHead skipComments c text).length = taken.length ∧
          (Piece.atHead skipComments c text').length = taken'.length) := by
  have hboth : Returned (c :: text) (c :: text') := .keep c h
  have hcases := pieceCases_atHead skipComments c text
  generalize Piece.atHead skipComments c text = piece at hcases ⊢
  cases hcases with
  | separator htext hseparator =>
      obtain ⟨rfl, rfl⟩ := List.cons_eq_cons.1 htext
      have hpiece : Piece.atHead skipComments c text' = .separator := if_pos hseparator
      refine ⟨[c], text, [c], text', rfl, rfl, h, .inr ⟨by simp, by simp [hpiece], rfl, ?_⟩⟩
      rw [hpiece]
      rfl
  | @comment taken rest htext hne hskip hstart htaken =>
      rw [← hboth.startsComment_eq] at hstart
      rw [htext] at hboth
      obtain ⟨rest', hrest', hrest⟩ := hboth.of_append (upTo_endsLine_iff.1 htaken).2
      obtain ⟨returns, behind, rfl, hbehind, hline⟩ := hrest.exists_upTo_endsLine htaken
      rw [← List.append_assoc] at hrest'
      have hpiece := Piece.atHead_of_comment hskip hrest' hstart hline
      refine ⟨taken, rest, taken ++ returns, behind, htext, hrest', hbehind, .inr ?_⟩
      rw [hpiece]
      exact ⟨by simp, by simp, rfl, rfl⟩
  | @content taken rest htext hne htaken =>
      rw [htext] at hboth
      obtain ⟨rest', hrest', hrest⟩ := hboth.of_append htaken.forall_ne_lineFeed
      have hpiece := Piece.atHead_of_content hrest' hne
        (htaken.congr fun back _ => (hrest.append_left back).endsContent_iff)
      exact ⟨taken, rest, taken, rest', htext, hrest', hrest, .inl ⟨rfl, rfl, hpiece⟩⟩

end Returned

/-! ### A separator by itself -/

theorem Token.unplaced_mark (text : List Char) (m : Mark) (span : Span) (levels : List UInt16) :
    Token.unplaced text ⟨.mark m, span, levels⟩ = ⟨.mark m, levels, []⟩ := rfl

namespace Session

/-- A separator that is no line feed leaves no trace: the scan before it gives the marks that the
scan behind it would give, and otherwise leaves a state that is as good. -/
theorem map_drain_of_separator {s : Session} {c : Char} {cs : List Char} (text : List Char)
    (hrest : s.place.rest = c :: cs) (hseparator : isSeparator c = true) (hc : c ≠ '\n') :
    s.drain.1.map (Token.unplaced text) = (s.skip 1).drain.1.map (Token.unplaced text) := by
  induction hw : s.weight using Nat.strongRecOn generalizing s with
  | ind w ih =>
      subst hw
      have hheld : (s.skip 1).held = s.held := rfl
      rcases hsettle : s.held.settle s.config.accept with ⟨mark, t⟩
      cases mark with
      | some m =>
          have hstep := step_of_scan_mark (scan_of_settle_some hsettle s.place.rest)
          have hstep' := step_of_scan_mark (s := s.skip 1)
            (scan_of_settle_some (hheld ▸ hsettle) (s.skip 1).place.rest)
          have hbehind := ih _ (weight_lt_of_token hstep) (by rw [Place.skip_zero]; exact hrest) rfl
          rw [drain_of_token hstep, drain_of_token hstep', List.map_cons, List.map_cons,
            Token.unplaced_mark, Token.unplaced_mark, hbehind, Place.skip_zero, Place.skip_zero]
          rfl
      | none =>
          have hpiece : Piece.atHead s.config.skipComments c cs = .separator := if_pos hseparator
          have hsettles := s.held.settles_settle s.config.accept
          rw [hsettle] at hsettles
          have hscan : scan Glyph.ofChar s.config.accept s.held s.place.rest = ⟨none, t, 0⟩ := by
            rw [← scan_of_settle_none hsettle, hrest]
            refine scan_of_settled hsettles.settle_eq ?_ cs
            rwa [Ne, Glyph.ofChar_eq_lineFeed_iff]
          have hstep := step_of_scan_none hscan
          rw [takePiece_of_dropped (s := ⟨s.config, s.place, t⟩) hrest (by simp [hpiece]),
            hpiece] at hstep
          rw [drain_of_dropped hstep]
          congr 2
          apply drain_congr
          refine step_congr rfl rfl ?_
          have hagain := held_of_declined (s.place.skip 1) hsettles
          exact (congrArg (scan Glyph.ofChar _ · _) hagain).trans (scan_of_settle_none hsettle _)

/-! ### Two sessions -/

/-- Sessions that are alike but for carriage returns in the text before them, each in a text of its
own. -/
structure Returned (text text' : List Char) (s u : Session) : Prop where
  config : u.config = s.config
  state : u.state = s.state
  rest : Offside.Returned s.place.rest u.place.rest
  first : StandsIn text s
  second : StandsIn text' u

namespace Returned

variable {text text' : List Char} {s u : Session}

/-- Tokens that are the same but for their places. -/
def SameToken (text text' : List Char) (t t' : Token) : Prop :=
  t'.unplaced text' = t.unplaced text

theorem held_eq (h : Returned text text' s u) : u.held = s.held := by
  rw [held, held, snapshot, snapshot, h.config, h.state]

theorem skip (h : Returned text text' s u) (t : State) {n n' : Nat}
    (hrest : Offside.Returned (s.place.rest.drop n) (u.place.rest.drop n')) :
    Returned text text' ⟨s.config, s.place.skip n, t⟩ ⟨u.config, u.place.skip n', t⟩ :=
  ⟨h.config, rfl, hrest, Place.at?_skip h.first n, Place.at?_skip h.second n'⟩

theorem takePiece (h : Returned text text' s u)
    (hhead : u.place.rest.head? = s.place.rest.head?) :
    Step.Rel (SameToken text text') (Returned text text') s.takePiece u.takePiece := by
  have hrest := h.rest
  generalize hs : s.place.rest = rest at hrest hhead
  generalize hu : u.place.rest = rest' at hrest hhead
  cases hrest with
  | nil =>
      rw [Session.takePiece, Session.takePiece, hs, hu]
      exact .finished h
  | @keep c cs cs' hcs =>
      obtain ⟨taken, rest, taken', rest', htext, htext', hrest, hpiece⟩ :=
        hcs.piece s.config.skipComments c
      have hdrop : Offside.Returned (s.place.rest.drop taken.length)
          (u.place.rest.drop taken'.length) := by
        rw [hs, hu, htext, htext', List.drop_left, List.drop_left]
        exact hrest
      have hskip := h.skip s.state hdrop
      have hsecond : u.skip taken'.length = ⟨u.config, u.place.skip taken'.length, s.state⟩ := by
        rw [← h.state]
        rfl
      rw [← hsecond] at hskip
      rcases hpiece with ⟨rfl, hfirst, hother⟩ | ⟨hfirst, hother, hlength, hlength'⟩
      · rw [← h.config] at hother
        rw [takePiece_of_content hs hfirst, takePiece_of_content hu hother]
        refine .token ?_ hskip
        have hslice := Place.slice?_skip h.first taken'.length
        have hslice' := Place.slice?_skip h.second taken'.length
        rw [hs, htext, List.take_left] at hslice
        rw [hu, htext', List.take_left] at hslice'
        simp only [SameToken, Token.unplaced, Session.skip, hslice, hslice', h.state]
      · rw [← h.config] at hother hlength'
        rw [takePiece_of_dropped hs hfirst, takePiece_of_dropped hu hother, hlength, hlength']
        exact .dropped hskip
  | insert hcs => cases hhead

theorem step (h : Returned text text' s u) (hhead : u.place.rest.head? = s.place.rest.head?) :
    Step.Rel (SameToken text text') (Returned text text') s.step u.step := by
  obtain ⟨mark, t, n, n', hscan, hscan', hrest⟩ := h.rest.scan hhead s.config.accept s.held
  rw [← h.held_eq, ← h.config] at hscan'
  cases mark with
  | some m =>
      rw [step_of_scan_mark hscan, step_of_scan_mark hscan']
      exact .token rfl (h.skip t hrest)
  | none =>
      rw [step_of_scan_none hscan, step_of_scan_none hscan']
      exact takePiece ⟨h.config, rfl, h.rest, h.first, h.second⟩ hhead

/-- A carriage return that is put before the rest of the text can be passed over. -/
theorem exists_head (h : Returned text text' s u) :
    ∃ v, Returned text text' s v ∧ v.place.rest.head? = s.place.rest.head? ∧
      v.drain.1.map (Token.unplaced text') = u.drain.1.map (Token.unplaced text') := by
  have hrest := h.rest
  generalize hs : s.place.rest = rest at hrest
  generalize hu : u.place.rest = rest' at hrest
  cases hrest with
  | nil => exact ⟨u, h, by rw [hu], rfl⟩
  | keep c hcs => exact ⟨u, h, by rw [hu]; rfl, rfl⟩
  | @insert cs cs' hcs =>
      have hskip : (u.place.skip 1).rest = '\n' :: cs' := by rw [Place.rest_skip, hu]; rfl
      refine ⟨u.skip 1, ⟨h.config, h.state, ?_, h.first, Place.at?_skip h.second 1⟩, ?_,
        (map_drain_of_separator text' hu rfl (by decide)).symm⟩
      · rw [hs, Session.skip, hskip]
        exact .keep '\n' hcs
      · rw [Session.skip, hskip]
        rfl

/-- Such sessions give the same tokens, though one may take more steps than the other. -/
theorem map_drain (h : Returned text text' s u) :
    u.drain.1.map (Token.unplaced text') = s.drain.1.map (Token.unplaced text) := by
  induction s using step_induction generalizing u with
  | token s t s' hs ih =>
      obtain ⟨v, hv, hhead, hsame⟩ := h.exists_head
      have hrel := hv.step hhead
      rw [hs] at hrel
      generalize hstep : v.step = step at hrel
      cases hrel with
      | token htoken hbehind =>
          rw [← hsame, drain_of_token hstep, drain_of_token hs, List.map_cons, List.map_cons,
            htoken, ih hbehind]
  | dropped s s' hs ih =>
      obtain ⟨v, hv, hhead, hsame⟩ := h.exists_head
      have hrel := hv.step hhead
      rw [hs] at hrel
      generalize hstep : v.step = step at hrel
      cases hrel with
      | dropped hbehind => rw [← hsame, drain_of_dropped hstep, drain_of_dropped hs, ih hbehind]
  | finished s s' hs =>
      obtain ⟨v, hv, hhead, hsame⟩ := h.exists_head
      have hrel := hv.step hhead
      rw [hs] at hrel
      generalize hstep : v.step = step at hrel
      cases hrel with
      | finished => rw [← hsame, drain_of_finished hstep, drain_of_finished hs]; rfl

end Returned

end Session

/-- **Line endings make no difference.** Whatever line feeds of a document get a carriage return before
them, whatever marks are accepted and whatever the checkpoints lose, the tokens are of the same kinds
and have the same levels behind them, and content has the same text. -/
theorem lexUnplaced_withReturns (config : Config) (chosen : Nat → Bool) (text : List Char) :
    lexUnplaced config (withReturns chosen text) = lexUnplaced config text :=
  Session.Returned.map_drain (s := .start text config) (u := .start (withReturns chosen text) config)
    ⟨rfl, rfl, .withReturns chosen text, Session.standsIn_start text config,
      Session.standsIn_start _ config⟩

end Offside
