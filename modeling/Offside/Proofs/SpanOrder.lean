import Mathlib.Order.Monotone.Basic
import Offside.Proofs.CursorStep
import Offside.Proofs.Resumption
import Offside.Proofs.SessionEnd

/-! Where the tokens of a session stand. A session only moves on, and by whole characters, so that its
tokens are slices of the text, one behind the other. -/

namespace Offside

/-- A token that a session gives on its way from one offset of the text to another. -/
structure Token.Between (text : List Char) (start stop : Nat) (t : Token) : Prop where
  start_le : start ≤ t.span.start
  stop_eq : t.span.stop = stop
  /-- Both ends lie between characters of the text. -/
  slice : ∃ run, Text.slice? t.span.start t.span.stop text = some run
  mark : ∀ m, t.kind = .mark m → t.span.start = t.span.stop
  content : t.kind = .content → t.span.start < t.span.stop

theorem Token.Between.mono {text : List Char} {start start' stop : Nat} {t : Token}
    (h : t.Between text start' stop) (hle : start ≤ start') : t.Between text start stop :=
  { h with start_le := Nat.le_trans hle h.start_le }

theorem Place.offset_le_skip (p : Place) (n : Nat) : p.offset ≤ (p.skip n).offset :=
  Nat.le_add_right _ _

namespace Session

variable {text : List Char} {config : Config} {s u : Session}

theorem offset_le_next_step (s : Session) : s.place.offset ≤ s.step.next.place.offset := by
  obtain ⟨n, hn⟩ := place_next_step s
  rw [hn]
  exact s.place.offset_le_skip n

theorem between_of_token (hstands : StandsIn text s) {t : Token} (h : s.step = .token t u) :
    t.Between text s.place.offset u.place.offset := by
  have hmark (m : Mark) (hm : t.kind = .mark m) := start_eq_stop_of_mark hstands h hm
  have hcontent := start_lt_stop_of_content h
  have hcases := s.stepCases_step
  rw [h] at hcases
  cases hcases with
  | @mark m t n =>
      have hplace := Place.at?_skip hstands n
      refine ⟨s.place.offset_le_skip n, rfl, ⟨[], ?_⟩, hmark, hcontent⟩
      simpa [Place.skip_zero] using Place.slice?_skip hplace 0
  | @content t k n =>
      exact ⟨Nat.le_refl _, rfl, ⟨_, Place.slice?_skip hstands n⟩, hmark, hcontent⟩

theorem between_of_next (hstands : StandsIn text s) {t : Token} (h : s.next.1 = some t) :
    t.Between text s.place.offset s.next.2.place.offset := by
  induction s using next.induct with
  | case1 s t' u hs =>
      rw [next, hs] at h ⊢
      obtain rfl := Option.some.inj h
      exact between_of_token hstands hs
  | case2 s u hs ih =>
      have hle := offset_le_next_step s
      have hu := standsIn_next_step hstands
      rw [hs] at hle hu
      rw [next, hs] at h ⊢
      exact (ih hu h).mono hle
  | case3 s u hs =>
      rw [next_of_finished hs] at h
      cases h

/-- Where the session stands behind the given number of calls. -/
def offsetAfter (s : Session) (n : Nat) : Nat := (s.after n).place.offset

theorem monotone_offsetAfter (s : Session) : Monotone s.offsetAfter := by
  refine monotone_nat_of_le_succ fun n => ?_
  rw [offsetAfter, offsetAfter, after_succ]
  refine keeps_next (P := fun u => (s.after n).place.offset ≤ u.place.offset) ?_ (Nat.le_refl _)
  exact fun u hu => Nat.le_trans hu (offset_le_next_step u)

theorem between_offsetAfter (hopens : Opens text config s) {n : Nat} {t : Token}
    (h : (s.after n).next.1 = some t) :
    t.Between text (s.offsetAfter n) (s.offsetAfter (n + 1)) := by
  rw [offsetAfter, offsetAfter, after_succ]
  exact between_of_next (standsIn_after hopens.standsIn n) h

/-- **Spans and positions are always well placed.** A session stands between two characters of its
text and never goes back. The token of a call ends where the session then stands, and its span is a
slice of the text, empty for a mark alone. -/
theorem well_placed (hopens : Opens text config s) (n : Nat) :
    s.offsetAfter n ≤ Text.byteLength text ∧
      (∃ before rest, text = before ++ rest ∧ Text.byteLength before = s.offsetAfter n) ∧
      (∀ saved config', ∃ r, resume text (s.offsetAfter n) saved config' = .ok r) ∧
      s.offsetAfter n ≤ s.offsetAfter (n + 1) ∧
      ∀ t, (s.after n).next.1 = some t →
        t.Between text (s.offsetAfter n) (s.offsetAfter (n + 1)) ∧
        ∀ m < n, ∀ t', (s.after m).next.1 = some t' → t'.span.stop ≤ t.span.start := by
  have hstands := standsIn_after hopens.standsIn n
  obtain ⟨-, before, htext, hbefore⟩ := Place.at?_eq_some_iff.1 hstands
  refine ⟨?_, ⟨before, _, htext, hbefore⟩, fun saved config' => ?_,
    monotone_offsetAfter s n.le_succ,
    fun t ht => ⟨between_offsetAfter hopens ht, fun m hm t' ht' => ?_⟩⟩
  · rw [htext, Text.byteLength_append, hbefore]
    exact Nat.le_add_right _ _
  · exact ⟨_, resume_eq_ok_iff.2 ⟨_, hstands, rfl⟩⟩
  · calc t'.span.stop
      _ = s.offsetAfter (m + 1) := (between_offsetAfter hopens ht').stop_eq
      _ ≤ s.offsetAfter n := monotone_offsetAfter s hm
      _ ≤ t.span.start := (between_offsetAfter hopens ht).start_le

/-- Resumed behind a character of two bytes, with a level open and a width pending: the first call
gives a DEDENT without width, and the second passes a comment and a line break. -/
theorem well_placed_two_calls :
    let text := ['é', '/', '/', 'é', '\n', ' ', 'x']
    let first : Token := ⟨.mark .dedent, ⟨2, 2⟩, [0]⟩
    let second : Token := ⟨.mark .newline, ⟨8, 8⟩, [0]⟩
    ∃ s, resume text 2 [1, 0, 0, 2, 0, 0, 4, 0] {} = .ok s ∧
      (s.after 0).next.1 = some first ∧ (s.after 1).next.1 = some second ∧
      first.Between text 2 2 ∧ second.Between text 2 8 ∧ first.span.stop ≤ second.span.start ∧
      (∃ before rest, text = before ++ rest ∧ Text.byteLength before = 8) ∧
      ∃ r, resume text 8 [7, 7] { checkpoint := true } = .ok r := by
  intro text first second
  obtain ⟨s, hs⟩ : ∃ s, s = (⟨{}, ⟨2, ['/', '/', 'é', '\n', ' ', 'x']⟩,
      .recover [1, 0, 0, 2, 0, 0, 4, 0]⟩ : Session) := ⟨_, rfl⟩
  have hresume : resume text 2 [1, 0, 0, 2, 0, 0, 4, 0] {} = .ok s := by
    rw [hs]
    rfl
  have hfirst : (s.after 0).next.1 = some first := by
    rw [hs]
    decide +kernel
  have hsecond : (s.after 1).next.1 = some second := by
    rw [hs]
    decide +kernel
  obtain ⟨-, -, -, -, htoken⟩ := well_placed (.resume hresume) 0
  obtain ⟨-, -, -, -, htoken'⟩ := well_placed (.resume hresume) 1
  obtain ⟨-, hplace, hagain, -⟩ := well_placed (.resume hresume) 2
  obtain ⟨hbetween, -⟩ := htoken first hfirst
  obtain ⟨hbetween', hordered⟩ := htoken' second hsecond
  have hstart : s.offsetAfter 0 = 2 := by rw [hs, offsetAfter, after]
  have hmiddle : 2 = s.offsetAfter 1 := hbetween.stop_eq
  have hend : 8 = s.offsetAfter 2 := hbetween'.stop_eq
  rw [hstart, ← hmiddle] at hbetween
  rw [← hmiddle, ← hend] at hbetween'
  rw [← hend] at hplace hagain
  exact ⟨s, hresume, hfirst, hsecond, hbetween, hbetween', hordered 0 Nat.one_pos first hfirst,
    hplace, hagain _ _⟩

end Session

end Offside
