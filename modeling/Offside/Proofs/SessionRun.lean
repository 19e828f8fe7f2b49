import Mathlib.Data.List.Forall2
import Offside.Session

/-! Runs of a session, step by step: what the tokens left are in terms of the next step, and how a
property that each step keeps is kept by any number of calls. So is a relation between two sessions
that each step of both keeps. -/

namespace Offside.Session

/-- The session behind the given number of calls for a token. -/
def after (s : Session) : Nat → Session
  | 0 => s
  | n + 1 => s.next.2.after n

theorem drainOnto_append (read front : List Token) (s : Session) :
    drainOnto (read ++ front) s =
      (front.reverse ++ (drainOnto read s).1, (drainOnto read s).2) := by
  induction read, s using drainOnto.induct with
  | case1 read s t u h ih =>
      rw [drainOnto, drainOnto, h]
      exact ih
  | case2 read s u h ih =>
      rw [drainOnto, drainOnto, h]
      exact ih
  | case3 read s u h =>
      rw [drainOnto, drainOnto, h]
      simp

variable {s u : Session}

theorem drain_of_token {t : Token} (h : s.step = .token t u) :
    s.drain = (t :: u.drain.1, u.drain.2) := by
  rw [drain, drainOnto, h]
  exact drainOnto_append [] [t] u

theorem drain_of_dropped (h : s.step = .dropped u) : s.drain = u.drain := by
  rw [drain, drainOnto, h, drain]

theorem drain_of_finished (h : s.step = .finished u) : s.drain = ([], u) := by
  rw [drain, drainOnto, h, List.reverse_nil]

theorem drain_congr (h : s.step = u.step) : s.drain = u.drain := by
  cases hs : s.step with
  | token t v => rw [drain_of_token hs, drain_of_token (h.symm.trans hs)]
  | dropped v => rw [drain_of_dropped hs, drain_of_dropped (h.symm.trans hs)]
  | finished v => rw [drain_of_finished hs, drain_of_finished (h.symm.trans hs)]

theorem next_congr (h : s.step = u.step) : s.next = u.next := by
  cases hs : s.step <;> rw [next, next, hs, h.symm.trans hs]

theorem step_of_scan_mark {m : Mark} {t : State} {n : Nat}
    (h : scan Glyph.ofChar s.config.accept s.held s.place.rest = ⟨some m, t, n⟩) :
    s.step = markStep m ⟨s.config, s.place.skip n, t⟩ := by
  rw [step, h]

theorem step_of_scan_none {t : State} {n : Nat}
    (h : scan Glyph.ofChar s.config.accept s.held s.place.rest = ⟨none, t, n⟩) :
    s.step = takePiece ⟨s.config, s.place, t⟩ := by
  rw [step, h]

theorem takePiece_of_content {n : Nat} {c : Char} {cs : List Char} (hrest : s.place.rest = c :: cs)
    (hpiece : Piece.atHead s.config.skipComments c cs = .content n) :
    s.takePiece = contentStep s.place.offset (s.skip n) := by
  rw [takePiece, hrest]
  dsimp only
  rw [hpiece]

theorem takePiece_of_dropped {c : Char} {cs : List Char} (hrest : s.place.rest = c :: cs)
    (hpiece : ∀ n, Piece.atHead s.config.skipComments c cs ≠ .content n) :
    s.takePiece = .dropped (s.skip (Piece.atHead s.config.skipComments c cs).length) := by
  rw [takePiece, hrest]
  dsimp only
  split
  · exact absurd ‹_› (hpiece _)
  · rfl

theorem held_of_no_checkpoint (h : s.config.checkpoint = false) : s.held = s.state := by
  rw [held, h, if_neg Bool.false_ne_true]

theorem step_congr (hconfig : s.config = u.config) (hplace : s.place = u.place)
    (hscan : scan Glyph.ofChar u.config.accept s.held u.place.rest =
      scan Glyph.ofChar u.config.accept u.held u.place.rest) : s.step = u.step := by
  rw [step, step, hconfig, hplace, hscan]

/-- Everything that one step can do: a mark of the scanner, and where that gives none a piece of the
text, or the end. -/
inductive StepCases (s : Session) : Step → Prop where
  | mark {m : Mark} {t : State} {n : Nat}
      (hscan : scan Glyph.ofChar s.config.accept s.held s.place.rest = ⟨some m, t, n⟩) :
      StepCases s (markStep m ⟨s.config, s.place.skip n, t⟩)
  | content {t : State} {k n : Nat} {c : Char} {cs : List Char}
      (hscan : scan Glyph.ofChar s.config.accept s.held s.place.rest = ⟨none, t, k⟩)
      (hrest : s.place.rest = c :: cs)
      (hpiece : Piece.atHead s.config.skipComments c cs = .content n) :
      StepCases s (contentStep s.place.offset ⟨s.config, s.place.skip n, t⟩)
  | dropped {t : State} {k : Nat} {c : Char} {cs : List Char}
      (hscan : scan Glyph.ofChar s.config.accept s.held s.place.rest = ⟨none, t, k⟩)
      (hrest : s.place.rest = c :: cs)
      (hpiece : ∀ n, Piece.atHead s.config.skipComments c cs ≠ .content n) :
      StepCases s (.dropped ⟨s.config,
        s.place.skip (Piece.atHead s.config.skipComments c cs).length, t⟩)
  | finished {t : State} {k : Nat}
      (hscan : scan Glyph.ofChar s.config.accept s.held s.place.rest = ⟨none, t, k⟩)
      (hrest : s.place.rest = []) :
      StepCases s (.finished ⟨s.config, s.place, t⟩)

theorem stepCases_step (s : Session) : StepCases s s.step := by
  rw [step]
  split
  · rename_i m t n hscan
    exact .mark hscan
  · rename_i t k hscan
    rw [takePiece]
    split
    · rename_i hrest
      exact .finished hscan hrest
    · rename_i c cs hrest
      split
      · rename_i n hpiece
        exact .content hscan hrest hpiece
      · rename_i hpiece
        exact .dropped hscan hrest hpiece

/-- Induction along a run, with one case for each thing that a step can do. -/
theorem run_induction {P : Session → Prop}
    (mark : ∀ s m t n,
      scan Glyph.ofChar s.config.accept s.held s.place.rest = ⟨some m, t, n⟩ →
      s.step = markStep m ⟨s.config, s.place.skip n, t⟩ →
      P ⟨s.config, s.place.skip n, t⟩ → P s)
    (content : ∀ s t k n c cs,
      scan Glyph.ofChar s.config.accept s.held s.place.rest = ⟨none, t, k⟩ →
      s.place.rest = c :: cs → Piece.atHead s.config.skipComments c cs = .content n →
      s.step = contentStep s.place.offset ⟨s.config, s.place.skip n, t⟩ →
      P ⟨s.config, s.place.skip n, t⟩ → P s)
    (dropped : ∀ s t k c cs,
      scan Glyph.ofChar s.config.accept s.held s.place.rest = ⟨none, t, k⟩ →
      s.place.rest = c :: cs → (∀ n, Piece.atHead s.config.skipComments c cs ≠ .content n) →
      s.step = .dropped ⟨s.config,
        s.place.skip (Piece.atHead s.config.skipComments c cs).length, t⟩ →
      P ⟨s.config, s.place.skip (Piece.atHead s.config.skipComments c cs).length, t⟩ → P s)
    (finished : ∀ s t k,
      scan Glyph.ofChar s.config.accept s.held s.place.rest = ⟨none, t, k⟩ →
      s.place.rest = [] → s.step = .finished ⟨s.config, s.place, t⟩ → P s)
    (s : Session) : P s := by
  induction hw : s.weight using Nat.strongRecOn generalizing s with
  | ind w ih =>
      subst hw
      have hcases := s.stepCases_step
      generalize hstep : s.step = step at hcases
      cases hcases with
      | mark hscan =>
          exact mark s _ _ _ hscan hstep (ih _ (weight_lt_of_token hstep) _ rfl)
      | content hscan hrest hpiece =>
          exact content s _ _ _ _ _ hscan hrest hpiece hstep
            (ih _ (weight_lt_of_token hstep) _ rfl)
      | dropped hscan hrest hpiece =>
          exact dropped s _ _ _ _ hscan hrest hpiece hstep
            (ih _ (weight_lt_of_dropped hstep) _ rfl)
      | finished hscan hrest => exact finished s _ _ hscan hrest hstep

theorem config_next_step (s : Session) : s.step.next.config = s.config := by
  have hcases := s.stepCases_step
  generalize s.step = step at hcases ⊢
  cases hcases <;> rfl

theorem place_next_step (s : Session) : ∃ n, s.step.next.place = s.place.skip n := by
  have hcases := s.stepCases_step
  generalize s.step = step at hcases ⊢
  cases hcases with
  | mark hscan => exact ⟨_, rfl⟩
  | content hscan hrest hpiece => exact ⟨_, rfl⟩
  | dropped hscan hrest hpiece => exact ⟨_, rfl⟩
  | finished hscan hrest => exact ⟨0, s.place.skip_zero.symm⟩

theorem keeps_next {P : Session → Prop} (hstep : ∀ s, P s → P s.step.next) (h : P s) :
    P s.next.2 := by
  induction s using next.induct with
  | case1 s t u hs =>
      rw [next, hs]
      simpa only [hs, Step.next] using hstep s h
  | case2 s u hs ih =>
      rw [next, hs]
      exact ih (by simpa only [hs, Step.next] using hstep s h)
  | case3 s u hs =>
      rw [next, hs]
      simpa only [hs, Step.next] using hstep s h

theorem keeps_after {P : Session → Prop} (hstep : ∀ s, P s → P s.step.next) (h : P s) (n : Nat) :
    P (s.after n) := by
  induction n generalizing s with
  | zero => exact h
  | succ n ih => exact ih (keeps_next hstep h)

theorem config_after (s : Session) (n : Nat) : (s.after n).config = s.config :=
  keeps_after (P := fun u => u.config = s.config)
    (fun u hu => (config_next_step u).trans hu) rfl n

/-- The session stands at a place of the given text. -/
def StandsIn (text : List Char) (s : Session) : Prop :=
  Place.at? text s.place.offset = some s.place

theorem standsIn_next_step {text : List Char} (h : StandsIn text s) :
    StandsIn text s.step.next := by
  obtain ⟨n, hn⟩ := place_next_step s
  rw [StandsIn, hn]
  exact Place.at?_skip h n

theorem standsIn_after {text : List Char} (h : StandsIn text s) (n : Nat) :
    StandsIn text (s.after n) :=
  keeps_after (fun _ => standsIn_next_step) h n

theorem standsIn_start (text : List Char) (config : Config) :
    StandsIn text (start text config) := by
  rw [StandsIn, Place.at?_eq_some_iff]
  exact ⟨rfl, [], rfl, rfl⟩

/-! ### Two sessions in step -/

/-- Two steps of one kind, with related tokens and related sessions behind them. -/
inductive Step.Rel (T : Token → Token → Prop) (R : Session → Session → Prop) :
    Step → Step → Prop where
  | token {t t' : Token} {s u : Session} (htoken : T t t') (hbehind : R s u) :
      Rel T R (.token t s) (.token t' u)
  | dropped {s u : Session} (hbehind : R s u) : Rel T R (.dropped s) (.dropped u)
  | finished {s u : Session} (hbehind : R s u) : Rel T R (.finished s) (.finished u)

section

variable {T : Token → Token → Prop} {R : Session → Session → Prop}
  (hstep : ∀ s u, R s u → Step.Rel T R s.step u.step)

include hstep

theorem drain_rel (h : R s u) : List.Forall₂ T s.drain.1 u.drain.1 := by
  induction hw : s.weight using Nat.strongRecOn generalizing s u with
  | ind w ih =>
      subst hw
      have hrel := hstep s u h
      generalize hs : s.step = step at hrel
      generalize hu : u.step = step' at hrel
      cases hrel with
      | token htoken hbehind =>
          rw [drain_of_token hs, drain_of_token hu]
          exact .cons htoken (ih _ (weight_lt_of_token hs) hbehind rfl)
      | dropped hbehind =>
          rw [drain_of_dropped hs, drain_of_dropped hu]
          exact ih _ (weight_lt_of_dropped hs) hbehind rfl
      | finished hbehind =>
          rw [drain_of_finished hs, drain_of_finished hu]
          exact .nil

theorem next_rel (h : R s u) : Option.Rel T s.next.1 u.next.1 ∧ R s.next.2 u.next.2 := by
  induction hw : s.weight using Nat.strongRecOn generalizing s u with
  | ind w ih =>
      subst hw
      have hrel := hstep s u h
      generalize hs : s.step = step at hrel
      generalize hu : u.step = step' at hrel
      rw [next, next, hs, hu]
      cases hrel with
      | token htoken hbehind => exact ⟨.some htoken, hbehind⟩
      | dropped hbehind => exact ih _ (weight_lt_of_dropped hs) hbehind rfl
      | finished hbehind => exact ⟨.none, hbehind⟩

theorem after_rel (h : R s u) (n : Nat) : R (s.after n) (u.after n) := by
  induction n generalizing s u with
  | zero => exact h
  | succ n ih => exact ih (next_rel hstep h).2

end

end Offside.Session
