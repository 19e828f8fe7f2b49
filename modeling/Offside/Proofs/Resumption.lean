import Offside.Proofs.SavedLevels
import Offside.Proofs.SessionRun

/-! Resuming a session where another one stands, with the state that it has saved. The resumed
session gives the tokens that the other one would still give, if its checkpoints lose what the save
loses, or if the save loses nothing. -/

namespace Offside.Session

/-- The sessions of a document: one from its start, and one from each offset of it with any bytes
for a state. -/
inductive Opens (text : List Char) (config : Config) : Session → Prop where
  | start : Opens text config (start text config)
  | resume {offset : Nat} {saved : List UInt8} {s : Session}
      (h : resume text offset saved config = .ok s) : Opens text config s

variable {text : List Char} {config : Config} {s : Session}

theorem resume_eq_ok_iff {offset : Nat} {saved : List UInt8} :
    resume text offset saved config = .ok s ↔
      ∃ place, Place.at? text offset = some place ∧ s = ⟨config, place, .recover saved⟩ := by
  rw [resume]
  by_cases hrange : Text.byteLength text < offset
  · rw [if_pos hrange]
    simp only [reduceCtorEq, false_iff, not_exists, not_and]
    intro place hplace
    obtain ⟨-, a, rfl, ha⟩ := Place.at?_eq_some_iff.1 hplace
    rw [Text.byteLength_append] at hrange
    omega
  · rw [if_neg hrange]
    cases Place.at? text offset with
    | none => simp
    | some place => simp [eq_comm]

theorem Opens.standsIn (h : Opens text config s) : StandsIn text s := by
  cases h with
  | start => exact standsIn_start text config
  | resume h =>
      obtain ⟨place, hplace, rfl⟩ := resume_eq_ok_iff.1 h
      rw [StandsIn, (Place.at?_eq_some_iff.1 hplace).1]
      exact hplace

theorem Opens.config_eq (h : Opens text config s) : s.config = config := by
  cases h with
  | start => rfl
  | resume h =>
      obtain ⟨place, -, rfl⟩ := resume_eq_ok_iff.1 h
      rfl

theorem resume_of_standsIn (h : StandsIn text s) :
    resume text s.place.offset s.snapshot s.config =
      .ok { s with state := .recover s.snapshot } :=
  resume_eq_ok_iff.2 ⟨s.place, h, rfl⟩

/-- Behind a checkpoint, a state and what its save keeps of it look alike. -/
theorem held_recover_snapshot (h : s.config.checkpoint = true) :
    held { s with state := .recover s.snapshot } = s.held := by
  rw [held, held, if_pos h, if_pos h]
  exact State.recover_save_idem s.config.capacity s.state

theorem step_recover_snapshot
    (h : s.config.checkpoint = true ∨ State.recover s.snapshot = s.state) :
    step { s with state := .recover s.snapshot } = s.step := by
  rcases h with h | h
  · refine step_congr ?_ ?_ ?_
    · rfl
    · rfl
    · rw [held_recover_snapshot h]
  · rw [h]

theorem after_congr {u : Session} (h : s.step = u.step) (n : Nat) :
    (s.after n).next.1 = (u.after n).next.1 := by
  cases n with
  | zero => rw [after, after, next_congr h]
  | succ n => rw [after, after, next_congr h]

/-- **A session resumed from a snapshot goes on like the session that took it.** It gives the same
answer to every further call, and so the same tokens in all. -/
theorem resume_snapshot {s : Session} (hopens : Opens text config s) (calls : Nat)
    (hkept : config.checkpoint = true ∨
      config.checkpoint = false ∧ 4 ≤ config.capacity ∧
        (s.after calls).state.levels.depth ≤ max 1 (min 100 ((config.capacity - 4) / 2))) :
    ∃ r, resume text (s.after calls).place.offset (s.after calls).snapshot config = .ok r ∧
      (∀ n, (r.after n).next.1 = ((s.after calls).after n).next.1) ∧
      r.drain.1 = (s.after calls).drain.1 := by
  have hstands := standsIn_after hopens.standsIn calls
  have hconfig := (config_after s calls).trans hopens.config_eq
  generalize s.after calls = u at hstands hconfig hkept
  subst hconfig
  have hstep : step { u with state := .recover u.snapshot } = u.step := by
    apply step_recover_snapshot
    rcases hkept with h | ⟨-, hheader, hdepth⟩
    · exact .inl h
    · exact .inr (State.recover_save_of_fits hheader hdepth)
  refine ⟨_, resume_of_standsIn hstands, ?_, ?_⟩
  · intro n
    exact after_congr hstep n
  · rw [drain_congr hstep]

/-- Eight bytes are just enough for the two levels that are open behind the third token. -/
theorem resume_snapshot_two_levels :
    let s := start ['a', '\n', ' ', ' ', 'b', '\n', 'c'] { capacity := 8 }
    (s.after 3).state.levels.depth = 2 ∧
      ∃ r, resume ['a', '\n', ' ', ' ', 'b', '\n', 'c'] (s.after 3).place.offset
          (s.after 3).snapshot { capacity := 8 } = .ok r ∧
        (∀ n, (r.after n).next.1 = ((s.after 3).after n).next.1) ∧
        r.drain.1 = (s.after 3).drain.1 := by
  intro s
  have hdepth : (s.after 3).state.levels.depth = 2 := by decide +kernel
  refine ⟨hdepth, resume_snapshot .start 3 (.inr ⟨rfl, by decide, ?_⟩)⟩
  rw [hdepth]
  decide

end Offside.Session
