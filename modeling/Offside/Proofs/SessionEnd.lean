import Mathlib.Logic.Function.Iterate
import Offside.Proofs.CheckpointRun

/-! The end of a session. Its steps come to an end, and the answers to its calls are the tokens of
the run, one after the other, and then none for ever. A session at its end stays as it is. -/

namespace Offside

/-- What a save and a recovery leave as it is, settling without a mark keeps so. -/
theorem State.recover_save_of_settles {capacity : Nat} {accept : MarkSet} {s t : State}
    (h : recover (s.save capacity) = s) (hsettles : s.Settles accept none t) :
    recover (t.save capacity) = t := by
  cases hsettles with
  | waits => exact h
  | clears hpending =>
      rw [recover_save] at h ⊢
      split at h
      · rename_i hsmall
        rw [if_pos hsmall, ← h]
        rfl
      · rename_i hlarge
        rw [if_neg hlarge]
        exact congrArg (State.mk · none) (congrArg State.levels h)

namespace Session

variable {s u : Session}

theorem step_induction {P : Session → Prop} (token : ∀ s t u, step s = .token t u → P u → P s)
    (dropped : ∀ s u, step s = .dropped u → P u → P s) (finished : ∀ s u, step s = .finished u → P s)
    (s : Session) : P s := by
  refine drainOnto.induct (motive := fun _ s => P s) ?_ ?_ ?_ [] s
  · exact fun _ => token
  · exact fun _ => dropped
  · exact fun _ => finished

/-! ### At the end -/

theorem held_of_declined {accept : MarkSet} {t : State} (p : Place)
    (h : s.held.Settles accept none t) : held ⟨s.config, p, t⟩ = t := by
  cases hcheckpoint : s.config.checkpoint with
  | false => exact held_of_no_checkpoint hcheckpoint
  | true =>
      rw [held, if_pos hcheckpoint] at h
      rw [held, if_pos hcheckpoint]
      exact State.recover_save_of_settles (State.recover_save_idem _ _) h

/-- The step that finds the end changes no more if it is taken again. -/
theorem step_of_finished (h : s.step = .finished u) : u.step = .finished u := by
  have hcases := s.stepCases_step
  rw [h] at hcases
  cases hcases with
  | @finished t k hscan hrest =>
      have hagain : scan Glyph.ofChar s.config.accept (held ⟨s.config, s.place, t⟩)
          s.place.rest = ⟨none, t, 0⟩ := by
        rw [held_of_declined s.place (settles_of_scan_none hscan)]
        exact scan_again hscan
      rw [step_of_scan_none hagain, takePiece, hrest]

theorem rest_of_finished (h : s.step = .finished u) : u.place.rest = [] := by
  have hcases := s.stepCases_step
  rw [h] at hcases
  cases hcases with
  | finished _ hrest => exact hrest

theorem levels_of_finished (h : s.step = .finished u) (haccept : s.config.accept.dedent = true) :
    u.state.levels.toList = [0] := by
  have hcases := s.stepCases_step
  rw [h] at hcases
  cases hcases with
  | @finished t k hscan hrest =>
      have hscanCases := scanCases_scan Glyph.ofChar s.config.accept s.held s.place.rest
      rw [hscan] at hscanCases
      cases hscanCases with
      | declined _ hended =>
          have hclosed := hended hrest
          rw [haccept, Bool.true_and, Levels.isOpen, Bool.not_eq_false', List.isEmpty_iff] at hclosed
          rw [Levels.toList, hclosed]
          rfl

theorem step_drain (s : Session) : s.drain.2.step = .finished s.drain.2 := by
  induction s using step_induction with
  | token s t u hstep ih => rwa [drain_of_token hstep]
  | dropped s u hstep ih => rwa [drain_of_dropped hstep]
  | finished s u hstep =>
      rw [drain_of_finished hstep]
      exact step_of_finished hstep

/-- Each round of a loop is one step, and all loops together have no more rounds than this. -/
theorem exists_iterate_finished (s : Session) :
    ∃ n ≤ s.weight, ∃ u, ((fun u => u.step.next)^[n] s).step = .finished u := by
  induction hw : s.weight using Nat.strongRecOn generalizing s with
  | ind w ih =>
      subst hw
      rcases s.weight_step with ⟨u, hu⟩ | hlt
      · exact ⟨0, Nat.zero_le _, u, hu⟩
      · obtain ⟨n, hn, u, hu⟩ := ih _ hlt s.step.next rfl
        refine ⟨n + 1, by omega, u, ?_⟩
        rwa [Function.iterate_succ_apply]

/-! ### Calls and tokens -/

theorem next_of_finished (h : s.step = .finished u) : s.next = (none, u) := by
  rw [next, h]

theorem drain_eq_next (s : Session) :
    s.drain = (s.next.1.toList ++ s.next.2.drain.1, s.next.2.drain.2) := by
  induction s using next.induct with
  | case1 s t u h =>
      rw [drain_of_token h, next, h]
      rfl
  | case2 s u h ih =>
      rw [drain_of_dropped h, next, h]
      exact ih
  | case3 s u h =>
      rw [next_of_finished h, drain_of_finished h, drain_of_finished (step_of_finished h)]
      rfl

theorem step_next_of_none (h : s.next.1 = none) : s.next.2.step = .finished s.next.2 := by
  induction s using next.induct with
  | case1 s t u hs =>
      rw [next, hs] at h
      cases h
  | case2 s u hs ih =>
      rw [next, hs] at h ⊢
      exact ih h
  | case3 s u hs =>
      rw [next_of_finished hs]
      exact step_of_finished hs

theorem after_succ (s : Session) (n : Nat) : s.after (n + 1) = (s.after n).next.2 := by
  induction n generalizing s with
  | zero => rfl
  | succ n ih => exact ih s.next.2

theorem after_of_finished (h : s.step = .finished s) (n : Nat) : s.after n = s := by
  induction n with
  | zero => rfl
  | succ n ih => rw [after_succ, ih, next_of_finished h]

/-- The answer to each call is the token of that number, and none behind the last. -/
theorem next_after (s : Session) (n : Nat) : (s.after n).next.1 = s.drain.1[n]? := by
  induction n generalizing s with
  | zero =>
      rw [drain_eq_next, after]
      cases h : s.next.1 with
      | none =>
          rw [drain_of_finished (step_next_of_none h)]
          rfl
      | some t => rfl
  | succ n ih =>
      rw [after, ih, drain_eq_next s]
      cases h : s.next.1 with
      | none =>
          rw [drain_of_finished (step_next_of_none h)]
          rfl
      | some t => rfl

theorem drain_after (s : Session) (n : Nat) : (s.after n).drain.2 = s.drain.2 := by
  induction n with
  | zero => rfl
  | succ n ih => rw [after_succ, ← ih, drain_eq_next (s.after n)]

/-- Behind one call more than there are tokens, the session is at its end. -/
theorem after_length_succ (s : Session) : s.after (s.drain.1.length + 1) = s.drain.2 := by
  have hnone : (s.after s.drain.1.length).next.1 = none := by
    rw [next_after, List.getElem?_eq_none (Nat.le_refl _)]
  have hend := after_succ s s.drain.1.length
  rw [hend, ← drain_after s (s.drain.1.length + 1), hend,
    drain_of_finished (step_next_of_none hnone)]

theorem levels_of_next {t : Token} (h : s.next.1 = some t) :
    t.levels = s.next.2.state.levels.toList := by
  induction s using next.induct with
  | case1 s t' u hs =>
      rw [next, hs] at h ⊢
      obtain rfl := Option.some.inj h
      exact levels_of_token hs
  | case2 s u hs ih =>
      rw [next, hs] at h ⊢
      exact ih h
  | case3 s u hs =>
      rw [next_of_finished hs] at h
      cases h

/-- What holds of the token of every step holds of every token of a run. -/
theorem forall_drain {P : Token → Prop} (hstep : ∀ s t u, step s = .token t u → P t) (s : Session) :
    ∀ t ∈ s.drain.1, P t := by
  induction s using step_induction with
  | token s t u hs ih =>
      rw [drain_of_token hs]
      exact List.forall_mem_cons.2 ⟨hstep s t u hs, ih⟩
  | dropped s u hs ih => rwa [drain_of_dropped hs]
  | finished s u hs =>
      rw [drain_of_finished hs]
      exact List.forall_mem_nil _

theorem start_lt_stop_of_content {t : Token} (h : s.step = .token t u) (hkind : t.kind = .content) :
    t.span.start < t.span.stop := by
  have hcases := s.stepCases_step
  rw [h] at hcases
  cases hcases with
  | mark => cases hkind
  | @content _ _ n c cs _ hrest hpiece =>
      have hpos := (Piece.length_atHead s.config.skipComments c cs).1
      rw [hpiece] at hpos
      obtain ⟨k, rfl⟩ : ∃ k, n = k + 1 := Nat.exists_eq_add_one.2 hpos
      have hsize := c.utf8Size_pos
      simp only [Place.skip, hrest, List.take_succ_cons, Text.byteLength_cons]
      omega

end Session

end Offside
