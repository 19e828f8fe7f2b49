import Offside.Proofs.Resumption

/-! A session does not see what lies before its place. Where two texts go on alike, two sessions
that are alike but for their place go on alike: their tokens differ only in where they stand, and
they differ in that by the distance between the places. -/

namespace Offside

variable {text₁ text₂ : List Char} {shift : Int}

/-- Tokens that differ only in where they stand: the second is so far behind the first, each in a
text of its own. -/
structure Token.Relocated (text₁ text₂ : List Char) (shift : Int) (t₁ t₂ : Token) : Prop where
  kind : t₂.kind = t₁.kind
  levels : t₂.levels = t₁.levels
  start : (t₂.span.start : Int) = t₁.span.start + shift
  stop : (t₂.span.stop : Int) = t₁.span.stop + shift
  content : t₁.kind = .content → ∃ run, run ≠ [] ∧
    Text.slice? t₁.span.start t₁.span.stop text₁ = some run ∧
    Text.slice? t₂.span.start t₂.span.stop text₂ = some run

/-- Places of two texts that go on alike from there. -/
structure Place.Alike (text₁ text₂ : List Char) (shift : Int) (p₁ p₂ : Place) : Prop where
  rest : p₂.rest = p₁.rest
  offset : (p₂.offset : Int) = p₁.offset + shift
  first : at? text₁ p₁.offset = some p₁
  second : at? text₂ p₂.offset = some p₂

theorem Place.Alike.skip {p₁ p₂ : Place} (h : Alike text₁ text₂ shift p₁ p₂) (n : Nat) :
    Alike text₁ text₂ shift (p₁.skip n) (p₂.skip n) := by
  refine ⟨?_, ?_, at?_skip h.first n, at?_skip h.second n⟩
  · rw [rest_skip, rest_skip, h.rest]
  · have hoffset := h.offset
    rw [Place.skip, Place.skip, h.rest]
    dsimp only
    omega

namespace Session

/-- Sessions that differ only in where they stand, each in a text of its own. -/
structure Alike (text₁ text₂ : List Char) (shift : Int) (s₁ s₂ : Session) : Prop where
  config : s₂.config = s₁.config
  state : s₂.state = s₁.state
  place : Place.Alike text₁ text₂ shift s₁.place s₂.place

variable {s₁ s₂ : Session}

theorem Alike.markStep (h : Alike text₁ text₂ shift s₁ s₂) (m : Mark) :
    Step.Rel (Token.Relocated text₁ text₂ shift) (Alike text₁ text₂ shift) (markStep m s₁)
      (markStep m s₂) := by
  refine .token ⟨rfl, ?_, h.place.offset, h.place.offset, by simp⟩ h
  dsimp only
  rw [h.state]

theorem Alike.takePiece (h : Alike text₁ text₂ shift s₁ s₂) :
    Step.Rel (Token.Relocated text₁ text₂ shift) (Alike text₁ text₂ shift) s₁.takePiece
      s₂.takePiece := by
  have hskip (n : Nat) : Alike text₁ text₂ shift (s₁.skip n) (s₂.skip n) :=
    ⟨h.config, h.state, h.place.skip n⟩
  rw [Session.takePiece, Session.takePiece, h.place.rest, h.config]
  cases hrest : s₁.place.rest with
  | nil => exact .finished h
  | cons c cs =>
      dsimp only
      have hpos := (Piece.length_atHead s₁.config.skipComments c cs).1
      cases hpiece : Piece.atHead s₁.config.skipComments c cs with
      | separator => exact .dropped (hskip 1)
      | comment n => exact .dropped (hskip n)
      | content n =>
          rw [hpiece] at hpos
          refine .token ⟨rfl, ?_, h.place.offset, (h.place.skip n).offset, fun _ => ?_⟩ (hskip n)
          · exact congrArg (fun s : State => s.levels.toList) h.state
          · have hslice := Place.slice?_skip h.place.second n
            rw [h.place.rest] at hslice
            refine ⟨_, ?_, Place.slice?_skip h.place.first n, hslice⟩
            obtain ⟨k, rfl⟩ : ∃ k, n = k + 1 := Nat.exists_eq_add_one.2 hpos
            rw [hrest, List.take_succ_cons]
            exact List.cons_ne_nil _ _

/-- The scan sees the state and the text from the place on, and so does the piece behind it. -/
theorem Alike.step (h : Alike text₁ text₂ shift s₁ s₂) :
    Step.Rel (Token.Relocated text₁ text₂ shift) (Alike text₁ text₂ shift) s₁.step s₂.step := by
  have hheld : s₂.held = s₁.held := by
    rw [held, held, snapshot, snapshot, h.config, h.state]
  rw [Session.step, Session.step, h.config, hheld, h.place.rest]
  obtain ⟨mark, t, n⟩ := scan Glyph.ofChar s₁.config.accept s₁.held s₁.place.rest
  cases mark with
  | none => exact Alike.takePiece ⟨rfl, rfl, h.place⟩
  | some m =>
      have hmoved : Alike text₁ text₂ shift ⟨s₁.config, s₁.place.skip n, t⟩
          ⟨s₁.config, s₂.place.skip n, t⟩ := ⟨rfl, rfl, h.place.skip n⟩
      exact hmoved.markStep m

/-- **An edit before a place changes nothing behind it.** Where two texts go on alike, sessions
resumed there from the same bytes give tokens that differ only in where they stand, with the same
states behind each call. -/
theorem resume_relocated {rest : List Char} {o₁ o₂ : Nat}
    (h₁ : Text.dropBytes? o₁ text₁ = some rest) (h₂ : Text.dropBytes? o₂ text₂ = some rest)
    (saved : List UInt8) (config : Config) :
    ∃ r₁ r₂, resume text₁ o₁ saved config = .ok r₁ ∧ resume text₂ o₂ saved config = .ok r₂ ∧
      List.Forall₂ (Token.Relocated text₁ text₂ (o₂ - o₁)) r₁.drain.1 r₂.drain.1 ∧
      ∀ calls,
        Option.Rel (Token.Relocated text₁ text₂ (o₂ - o₁)) (r₁.after calls).next.1
          (r₂.after calls).next.1 ∧
        (r₂.after calls).state = (r₁.after calls).state ∧
        ((r₂.after calls).place.offset : Int) = (r₁.after calls).place.offset + (o₂ - o₁) := by
  have hplace₁ : Place.at? text₁ o₁ = some ⟨o₁, rest⟩ := by
    rw [Place.at?, h₁]
    rfl
  have hplace₂ : Place.at? text₂ o₂ = some ⟨o₂, rest⟩ := by
    rw [Place.at?, h₂]
    rfl
  have hoffset : (o₂ : Int) = o₁ + (o₂ - o₁) := by omega
  have halike : Alike text₁ text₂ (o₂ - o₁) ⟨config, ⟨o₁, rest⟩, .recover saved⟩
      ⟨config, ⟨o₂, rest⟩, .recover saved⟩ := ⟨rfl, rfl, rfl, hoffset, hplace₁, hplace₂⟩
  have hstep (s₁ s₂ : Session) (h : Alike text₁ text₂ (o₂ - o₁) s₁ s₂) := h.step
  refine ⟨_, _, resume_eq_ok_iff.2 ⟨_, hplace₁, rfl⟩, resume_eq_ok_iff.2 ⟨_, hplace₂, rfl⟩,
    drain_rel hstep halike, fun calls => ?_⟩
  have hafter := after_rel hstep halike calls
  exact ⟨(next_rel hstep hafter).1, hafter.state, hafter.place.offset⟩

/-- One character of two bytes stands before the place in one text, and three of one byte each stand
before it in the other. -/
theorem resume_relocated_two_texts :
    let text₁ := ['é', '\n', ' ', 'b']
    let text₂ := ['x', 'y', 'z', '\n', ' ', 'b']
    let saved : List UInt8 := [1, 1, 0, 1, 0, 0]
    let config : Config := { checkpoint := true, capacity := 8 }
    ∃ r₁ r₂, resume text₁ 2 saved config = .ok r₁ ∧ resume text₂ 3 saved config = .ok r₂ ∧
      r₁.drain.1 = [⟨.mark .indent, ⟨2, 2⟩, [0, 1]⟩, ⟨.mark .newline, ⟨4, 4⟩, [0, 1]⟩,
        ⟨.content, ⟨4, 5⟩, [0, 1]⟩, ⟨.mark .dedent, ⟨5, 5⟩, [0]⟩] ∧
      List.Forall₂ (Token.Relocated text₁ text₂ 1) r₁.drain.1 r₂.drain.1 ∧
      ∀ calls,
        Option.Rel (Token.Relocated text₁ text₂ 1) (r₁.after calls).next.1
          (r₂.after calls).next.1 ∧
        (r₂.after calls).state = (r₁.after calls).state ∧
        ((r₂.after calls).place.offset : Int) = (r₁.after calls).place.offset + 1 := by
  intro text₁ text₂ saved config
  have h₁ : Text.dropBytes? 2 text₁ = some ['\n', ' ', 'b'] := by decide
  have h₂ : Text.dropBytes? 3 text₂ = some ['\n', ' ', 'b'] := by decide
  obtain ⟨r₁, r₂, hr₁, hr₂, hrelocated⟩ := resume_relocated h₁ h₂ saved config
  obtain rfl : (⟨config, ⟨2, ['\n', ' ', 'b']⟩, .recover saved⟩ : Session) = r₁ :=
    Except.ok.inj hr₁
  exact ⟨_, r₂, hr₁, hr₂, by decide +kernel, hrelocated⟩

end Session

end Offside
