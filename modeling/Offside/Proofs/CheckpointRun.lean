import Offside.Proofs.SavedLevels
import Offside.Proofs.ScanCases
import Offside.Proofs.SessionRun

/-! Runs with checkpoints and without, kept in step as long as the levels fit into a saved state. -/

namespace Offside

namespace Session

variable {s u : Session}

theorem levels_of_token {t : Token} (h : s.step = .token t u) :
    t.levels = u.state.levels.toList := by
  have hcases := s.stepCases_step
  rw [h] at hcases
  cases hcases with
  | mark => rfl
  | content => rfl

theorem levels_of_dropped (h : s.step = .dropped u) : u.state.levels = s.held.levels := by
  have hcases := s.stepCases_step
  rw [h] at hcases
  cases hcases with
  | dropped hscan => exact (settles_of_scan_none hscan).levels_eq

/-- The session with its state saved and recovered before every scan. -/
def checkpointed (capacity : Nat) (s : Session) : Session :=
  { s with config := { s.config with checkpoint := true, capacity } }

def Step.map (f : Session → Session) : Step → Step
  | token t s => .token t (f s)
  | dropped s => .dropped (f s)
  | finished s => .finished (f s)

theorem takePiece_checkpointed (capacity : Nat) (s : Session) :
    (s.checkpointed capacity).takePiece = s.takePiece.map (checkpointed capacity) := by
  rw [takePiece, takePiece, checkpointed]
  cases s.place.rest with
  | nil => rfl
  | cons c cs =>
      dsimp only
      cases Piece.atHead s.config.skipComments c cs <;> rfl

/-- The most levels of which none is lost in a saved state; the base alone is never lost. -/
def maxLevels (capacity : Nat) : Nat := max 1 (min 100 ((capacity - 4) / 2))

variable {capacity : Nat}

theorem held_checkpointed (hcheckpoint : s.config.checkpoint = false) (hheader : 4 ≤ capacity)
    (hdepth : s.state.levels.depth ≤ maxLevels capacity) :
    (s.checkpointed capacity).held = s.held := by
  rw [held_of_no_checkpoint hcheckpoint, held]
  exact (if_pos rfl).trans (State.recover_save_of_fits hheader hdepth)

theorem step_checkpointed (hcheckpoint : s.config.checkpoint = false) (hheader : 4 ≤ capacity)
    (hdepth : s.state.levels.depth ≤ maxLevels capacity) :
    (s.checkpointed capacity).step = s.step.map (checkpointed capacity) := by
  have hheld := held_checkpointed hcheckpoint hheader hdepth
  obtain ⟨mark, t, n, hscan⟩ : ∃ mark t n,
      scan Glyph.ofChar s.config.accept s.held s.place.rest = ⟨mark, t, n⟩ := ⟨_, _, _, rfl⟩
  have hscan' : scan Glyph.ofChar (s.checkpointed capacity).config.accept
      (s.checkpointed capacity).held (s.checkpointed capacity).place.rest = ⟨mark, t, n⟩ := by
    rw [hheld]
    exact hscan
  cases mark with
  | none =>
      rw [step_of_scan_none hscan, step_of_scan_none hscan']
      exact takePiece_checkpointed capacity ⟨s.config, s.place, t⟩
  | some m =>
      rw [step_of_scan_mark hscan, step_of_scan_mark hscan']
      rfl

theorem drain_checkpointed (hcheckpoint : s.config.checkpoint = false) (hheader : 4 ≤ capacity)
    (hdepth : s.state.levels.depth ≤ maxLevels capacity)
    (hfits : ∀ t ∈ s.drain.1, t.levels.length ≤ maxLevels capacity) :
    (s.checkpointed capacity).drain.1 = s.drain.1 := by
  induction hw : s.weight using Nat.strongRecOn generalizing s with
  | ind w ih =>
      subst hw
      have hstep := step_checkpointed hcheckpoint hheader hdepth
      have hconfig := config_next_step s
      cases hs : s.step with
      | token t v =>
          rw [hs] at hstep hconfig
          rw [drain_of_token hs] at hfits
          have hv : v.state.levels.depth ≤ maxLevels capacity := by
            rw [← Levels.length_toList, ← levels_of_token hs]
            exact hfits t List.mem_cons_self
          have hrest := ih v.weight (weight_lt_of_token hs) (hconfig ▸ hcheckpoint) hv
            (fun t' ht' => hfits t' (List.mem_cons_of_mem t ht')) rfl
          rw [drain_of_token hs, drain_of_token hstep, hrest]
      | dropped v =>
          rw [hs] at hstep hconfig
          rw [drain_of_dropped hs] at hfits
          have hv : v.state.levels.depth ≤ maxLevels capacity := by
            rw [levels_of_dropped hs, held_of_no_checkpoint hcheckpoint]
            exact hdepth
          rw [drain_of_dropped hs, drain_of_dropped hstep]
          exact ih v.weight (weight_lt_of_dropped hs) (hconfig ▸ hcheckpoint) hv hfits rfl
      | finished v =>
          rw [hs] at hstep
          rw [drain_of_finished hs, drain_of_finished hstep]

end Session

/-- **Checkpoints do not show while the levels fit.** If no token of the run without checkpoints has
more levels than the capacity keeps, the run with checkpoints gives the same tokens, whatever its
one buffer held before. -/
theorem lex_checkpoint (accept : MarkSet) (skipComments : Bool) (text : List Char)
    {capacity : Nat} (unused : Nat) (hheader : 4 ≤ capacity)
    (hfits : ∀ t ∈ lex ⟨accept, false, unused, skipComments⟩ text,
      t.levels.length ≤ max 1 (min 100 ((capacity - 4) / 2))) :
    lex ⟨accept, true, capacity, skipComments⟩ text =
        lex ⟨accept, false, unused, skipComments⟩ text ∧
      ∀ (buffer : List UInt8) (s : State), buffer.length = capacity →
        (s.saveInto buffer).2.length = capacity ∧
          State.recover ((s.saveInto buffer).2.take (s.saveInto buffer).1) =
            State.recover (s.save capacity) := by
  refine ⟨?_, ?_⟩
  · refine Session.drain_checkpointed (s := .start text ⟨accept, false, unused, skipComments⟩) rfl
      hheader ?_ hfits
    exact Nat.le_max_left 1 _
  · rintro buffer s rfl
    rw [State.take_saveInto]
    exact ⟨s.length_saveInto buffer, rfl⟩

/-- Eight bytes hold the two levels of this document, and no third. -/
theorem lex_checkpoint_two_levels :
    let text := ['a', '\n', ' ', 'b']
    let tokens : List Token := [⟨.content, ⟨0, 1⟩, [0]⟩, ⟨.mark .newline, ⟨3, 3⟩, [0]⟩,
      ⟨.mark .indent, ⟨3, 3⟩, [0, 1]⟩, ⟨.content, ⟨3, 4⟩, [0, 1]⟩, ⟨.mark .dedent, ⟨4, 4⟩, [0]⟩]
    (∀ t ∈ lex { capacity := 0 } text, t.levels.length ≤ 2) ∧
      lex { capacity := 0 } text = tokens ∧
      lex { checkpoint := true, capacity := 8 } text = tokens := by
  intro text tokens
  have htokens : lex { capacity := 0 } text = tokens := by decide +kernel
  have hfits : ∀ t ∈ lex { capacity := 0 } text, t.levels.length ≤ 2 := by
    rw [htokens]
    decide
  exact ⟨hfits, htokens, (lex_checkpoint .full true text 0 (by decide) hfits).1.trans htokens⟩

end Offside
