import Offside.Proofs.Lookahead
import Offside.Proofs.SessionRun

/-! A step of a session, made with a cursor over the whole text. The cursor is put where the session
stands; a mark has the span of its token, and the session goes on where that ends. -/

namespace Offside

/-- The cursor stands at the place, and so do the ends of its token. -/
structure Cursor.IsAt (p : Place) (c : Cursor) : Prop where
  pos : c.pos = p.offset
  start : c.start = p.offset
  stop : c.stop = p.offset
  upcoming : c.upcoming = some p.rest

namespace Cursor.IsAt

variable {text : List Char} {p : Place} {c : Cursor} {o : Outcome}

theorem ofOffset (h : Place.at? text p.offset = some p) : (ofOffset text p.offset).IsAt p := by
  obtain ⟨-, hbefore⟩ := Place.at?_eq_some_iff.1 h
  rw [ofOffset_of_dropBytes? (Text.dropBytes?_eq_some_iff.2 hbefore)]
  exact ⟨rfl, rfl, rfl, rfl⟩

theorem behind (h : c.IsAt p) (hstill : o.mark ≠ some .newline → o.consumed = 0)
    (hmoved : o.mark = some .newline → 0 < o.consumed ∧ o.consumed ≤ p.rest.length) :
    (c.behind o).IsAt (p.skip o.consumed) := by
  by_cases hmark : o.mark = some .newline
  · obtain ⟨hpos, hle⟩ := hmoved hmark
    obtain ⟨taken, rest, -, hrest, hlength, hbehind⟩ := behind_of_moved h.upcoming hmark hpos hle
    rw [hbehind, ← hlength, Place.skip_of_rest hrest, h.pos]
    exact ⟨rfl, rfl, rfl, rfl⟩
  · rw [behind_of_still hmark (hstill hmark), hstill hmark, Place.skip_zero]
    exact h

/-- A scan gives the outcome of what is left at the place, and moves the cursor over what that
consumes. -/
theorem scan (h : c.IsAt p) (accept : MarkSet) (s : State) :
    let o := Offside.scan Glyph.ofChar accept s p.rest
    (c.scan accept s).1 = o.mark ∧ (c.scan accept s).2.1 = o.state ∧
      (c.scan accept s).2.2.IsAt (p.skip o.consumed) := by
  intro o
  have houtcome : c.outcome accept s = o := by rw [outcome, h.upcoming]
  rw [Cursor.scan, houtcome]
  refine ⟨rfl, rfl, h.behind consumed_scan_of_ne_newline fun hmark => ?_⟩
  have heffect := effect_scan Glyph.ofChar accept s p.rest
  change Effect _ _ _ _ _ o.mark at heffect
  rw [hmark] at heffect
  cases heffect with
  | newline _ _ _ hmoved => exact hmoved.2

end Cursor.IsAt

namespace Session

/-- One step as made with a cursor: where that finds a mark, the session goes on at the end of the
cursor's token. -/
def cursorStep (text : List Char) (s : Session) : Step :=
  let (mark, state, c) := (Cursor.ofOffset text s.place.offset).scan s.config.accept s.held
  match mark with
  | some m =>
    let place := (Place.at? text c.stop).getD ⟨c.stop, []⟩
    .token ⟨.mark m, ⟨c.start, c.stop⟩, state.levels.toList⟩ ⟨s.config, place, state⟩
  | none => takePiece ⟨s.config, s.place, state⟩

variable {text : List Char} {s u : Session}

theorem step_eq_cursorStep (h : StandsIn text s) : s.step = s.cursorStep text := by
  obtain ⟨hmark, hstate, hat⟩ := (Cursor.IsAt.ofOffset h).scan s.config.accept s.held
  rw [cursorStep, step]
  generalize (Cursor.ofOffset text s.place.offset).scan s.config.accept s.held = call
    at hmark hstate hat
  generalize scan Glyph.ofChar s.config.accept s.held s.place.rest = o at hmark hstate hat
  obtain ⟨mark, state, c⟩ := call
  obtain ⟨mark', state', consumed⟩ := o
  dsimp only at hmark hstate hat
  obtain rfl := hmark
  obtain rfl := hstate
  cases mark with
  | none => rfl
  | some m =>
      dsimp only
      rw [hat.start, hat.stop, Place.at?_skip h consumed]
      rfl

theorem kind_of_takePiece {t : Token} (h : s.takePiece = .token t u) : t.kind = .content := by
  rw [takePiece] at h
  split at h
  · cases h
  · split at h
    · rw [contentStep] at h
      cases h
      rfl
    · cases h

/-- Where a scan gives a mark, the cursor's token starts where it ends. -/
theorem start_eq_stop_of_mark (h : StandsIn text s) {t : Token} (hs : s.step = .token t u) {m : Mark}
    (hm : t.kind = .mark m) : t.span.start = t.span.stop := by
  have hat := ((Cursor.IsAt.ofOffset h).scan s.config.accept s.held).2.2
  rw [step_eq_cursorStep h, cursorStep] at hs
  generalize (Cursor.ofOffset text s.place.offset).scan s.config.accept s.held = call at hs hat
  obtain ⟨mark, state, c⟩ := call
  cases mark with
  | none =>
      rw [kind_of_takePiece hs] at hm
      cases hm
  | some m' =>
      dsimp only at hs hat
      cases hs
      exact hat.start.trans hat.stop.symm

end Session

end Offside
