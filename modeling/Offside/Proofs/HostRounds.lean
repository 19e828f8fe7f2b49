import Offside.Proofs.Ledger
import Offside.Proofs.PlainHost

/-! The plain host, round by round. It comes to its end whatever it accepts at each call, and the
number of marks it gets is bounded by the line feeds of the text and the levels at the start: it moves
on at every line break, and in between there is at most one INDENT, and no more DEDENT than there are
levels. -/

namespace Offside

theorem Place.rest_skip_of_offset_eq {p : Place} {n : Nat} (h : (p.skip n).offset = p.offset) :
    (p.skip n).rest = p.rest := by
  have htaken : Text.byteLength (p.rest.take n) = 0 := by
    rw [Place.skip] at h
    dsimp only at h
    omega
  rw [Text.byteLength_eq_zero_iff] at htaken
  have hrest := List.take_append_drop n p.rest
  rwa [htaken, List.nil_append] at hrest

theorem Mark.length_eq_count (marks : List Mark) :
    marks.length = marks.count .newline + marks.count .indent + marks.count .dedent := by
  induction marks with
  | nil => rfl
  | cons m marks ih =>
      rw [List.length_cons, ih]
      cases m <;> simp <;> omega

namespace Host

/-- The plain host before a call. -/
structure Walker where
  call : Nat
  state : State
  place : Place

/-- A call of the plain host: the host before it, the mark if there is one, and the host behind it. -/
structure Round where
  before : Walker
  mark : Option Mark
  behind : Walker

/-- The host goes on behind a mark, and by one character, if one is left, where there is none. -/
def Walker.round (accepts : Nat → MarkSet) (w : Walker) : Round :=
  let o := scan Glyph.ofChar (accepts w.call) w.state w.place.rest
  ⟨w, o.mark, w.call + 1, o.state, w.place.skip (if o.mark.isSome then o.consumed else 1)⟩

/-- The plain host stops where a call at the end gives no mark. -/
def Walker.Stops (accepts : Nat → MarkSet) (w : Walker) : Prop :=
  (w.round accepts).mark = none ∧ w.place.rest = []

/-- The rounds that lead the plain host from one walker to another. -/
inductive Rounds (accepts : Nat → MarkSet) : Walker → List Round → Walker → Prop where
  | nil (w : Walker) : Rounds accepts w [] w
  | cons {w u : Walker} {rounds : List Round} (hgoes : ¬ w.Stops accepts)
      (hnext : Rounds accepts (w.round accepts).behind rounds u) :
      Rounds accepts w (w.round accepts :: rounds) u

/-- What the host notes down of a round. -/
def Round.visit? (r : Round) : Option Visit :=
  r.mark.map fun m => ⟨r.before.call, some m, r.behind.place.offset, r.behind.state⟩

variable {accepts : Nat → MarkSet} {w u : Walker} {rounds : List Round}

/-! ### One round -/

theorem Walker.round_of_scan {mark : Option Mark} {t : State} {n : Nat}
    (h : scan Glyph.ofChar (accepts w.call) w.state w.place.rest = ⟨mark, t, n⟩) :
    w.round accepts = ⟨w, mark, w.call + 1, t, w.place.skip (if mark.isSome then n else 1)⟩ := by
  rw [round, h]

theorem Walker.ledger_round (accepts : Nat → MarkSet) (w : Walker) :
    Ledger w.state w.place.rest (w.round accepts).mark.toList 0 (w.round accepts).behind.state
      (w.round accepts).behind.place.rest := by
  have hledger := Ledger.scan (accepts w.call) w.state w.place.rest
  have hzero := consumed_scan_of_mark_none Glyph.ofChar (accepts w.call) w.state w.place.rest
  generalize hscan : scan Glyph.ofChar (accepts w.call) w.state w.place.rest = o at hledger hzero
  obtain ⟨mark, t, n⟩ := o
  rw [round_of_scan hscan]
  cases mark with
  | some m => exact hledger
  | none =>
      rw [hzero rfl] at hledger
      exact hledger.trans (.skip t _ 1)

theorem Walker.lt_offset_of_newline (h : (w.round accepts).mark = some .newline) :
    w.place.offset < (w.round accepts).behind.place.offset := by
  have heffect := effect_scan Glyph.ofChar (accepts w.call) w.state w.place.rest
  generalize hscan : scan Glyph.ofChar (accepts w.call) w.state w.place.rest = o at heffect
  obtain ⟨mark, t, n⟩ := o
  rw [round_of_scan hscan] at h ⊢
  obtain rfl : mark = some .newline := h
  cases heffect with
  | newline _ _ _ hmoved =>
      obtain ⟨-, hpos, hle⟩ := hmoved
      dsimp only at hpos hle
      have htaken : Text.byteLength (w.place.rest.take n) ≠ 0 := by
        rw [Ne, Text.byteLength_eq_zero_iff, List.take_eq_nil_iff]
        rintro (hnil | hnil)
        · omega
        · rw [hnil, List.length_nil] at hle
          omega
      simp only [Option.isSome_some, if_true, Place.skip]
      omega

def Walker.weight (w : Walker) : Nat := 3 * w.place.rest.length + w.state.weight

theorem Walker.weight_round_lt (h : ¬ w.Stops accepts) :
    (w.round accepts).behind.weight < w.weight := by
  rw [Stops, not_and] at h
  generalize hscan : scan Glyph.ofChar (accepts w.call) w.state w.place.rest = o
  obtain ⟨mark, t, n⟩ := o
  rw [round_of_scan hscan] at h ⊢
  cases mark with
  | some m =>
      have hlt := weight_lt_of_scan hscan
      simpa [weight] using hlt
  | none =>
      have hle := weight_le_of_scan hscan
      have hpos := List.length_pos_iff.2 (h rfl)
      simp only [weight, Option.isSome_none, Bool.false_eq_true, if_false, Place.rest_skip,
        List.length_drop]
      omega

/-! ### Round after round -/

/-- Whatever is accepted, the host comes to where it stops. -/
theorem exists_rounds (accepts : Nat → MarkSet) (w : Walker) :
    ∃ rounds u, Rounds accepts w rounds u ∧ u.Stops accepts := by
  induction hw : w.weight using Nat.strongRecOn generalizing w with
  | ind n ih =>
      subst hw
      by_cases hstops : w.Stops accepts
      · exact ⟨[], w, .nil w, hstops⟩
      · obtain ⟨rounds, u, hrounds, hend⟩ := ih _ (Walker.weight_round_lt hstops) _ rfl
        exact ⟨_, u, .cons hstops hrounds, hend⟩

theorem walkFrom_of_stops (h : w.Stops accepts) :
    walkFrom accepts [] w.call w.state w.place =
      [⟨w.call, none, w.place.offset, (w.round accepts).behind.state⟩] := by
  obtain ⟨hmark, hend⟩ := h
  generalize hscan : scan Glyph.ofChar (accepts w.call) w.state w.place.rest = o
  obtain ⟨mark, t, n⟩ := o
  rw [Walker.round_of_scan hscan] at hmark ⊢
  obtain rfl : mark = none := hmark
  exact walkFrom_onto_of_end hscan hend []

namespace Rounds

theorem walkFrom_eq (h : Rounds accepts w rounds u) :
    walkFrom accepts [] w.call w.state w.place =
      rounds.filterMap Round.visit? ++ walkFrom accepts [] u.call u.state u.place := by
  induction h with
  | nil w => rfl
  | @cons w u rounds hgoes _ ih =>
      rw [Walker.Stops, not_and] at hgoes
      generalize hscan : scan Glyph.ofChar (accepts w.call) w.state w.place.rest = o
      obtain ⟨mark, t, n⟩ := o
      rw [Walker.round_of_scan hscan] at hgoes ih ⊢
      cases mark with
      | some m =>
          rw [walkFrom_of_mark hscan]
          exact congrArg (_ :: ·) ih
      | none =>
          rw [walkFrom_onto_of_declined hscan (hgoes rfl)]
          exact ih

theorem split {front back : List Round} (h : Rounds accepts w (front ++ back) u) :
    ∃ v, Rounds accepts w front v ∧ Rounds accepts v back u := by
  induction front generalizing w with
  | nil => exact ⟨w, .nil w, h⟩
  | cons r front ih =>
      cases h with
      | cons hgoes hnext =>
          obtain ⟨v, hfront, hback⟩ := ih hnext
          exact ⟨v, .cons hgoes hfront, hback⟩

theorem ledger (h : Rounds accepts w rounds u) :
    Ledger w.state w.place.rest (rounds.filterMap Round.mark) 0 u.state u.place.rest := by
  induction h with
  | nil w => exact .refl _ _
  | @cons w u rounds _ _ ih =>
      have hmarks : (w.round accepts :: rounds).filterMap Round.mark =
          (w.round accepts).mark.toList ++ rounds.filterMap Round.mark := by
        cases hmark : (w.round accepts).mark <;> simp [hmark]
      rw [hmarks]
      exact (w.ledger_round accepts).trans ih

theorem rest_eq_of_stays (h : Rounds accepts w rounds u)
    (hstays : ∀ r ∈ rounds, r.behind.place.offset = r.before.place.offset) :
    u.place.rest = w.place.rest := by
  induction h with
  | nil w => rfl
  | cons _ _ ih =>
      rw [List.forall_mem_cons] at hstays
      rw [ih hstays.2]
      exact Place.rest_skip_of_offset_eq hstays.1

theorem lt_offset_of_newline (h : Rounds accepts w rounds u) {r : Round} (hr : r ∈ rounds)
    (hmark : r.mark = some .newline) : r.before.place.offset < r.behind.place.offset := by
  induction h with
  | nil w => cases hr
  | cons _ _ ih =>
      rcases List.mem_cons.1 hr with rfl | hr
      · exact Walker.lt_offset_of_newline hmark
      · exact ih hr

theorem length_marks_le (h : Rounds accepts w rounds u) :
    (rounds.filterMap Round.mark).length ≤
      3 * w.place.rest.count '\n' + w.state.levels.depth + 1 := by
  obtain ⟨hnewlines, hindents, hdedents⟩ := h.ledger.bounds
  rw [Mark.length_eq_count]
  omega

/-- Where the host stays, no line feed is used up, so all that can be opened is the pending width. -/
theorem counts_of_stays (h : Rounds accepts w rounds u)
    (hstays : ∀ r ∈ rounds, r.behind.place.offset = r.before.place.offset) :
    (rounds.filterMap Round.mark).count .indent ≤ 1 ∧
      (rounds.filterMap Round.mark).count .dedent ≤ w.state.levels.depth := by
  obtain ⟨-, hindents, hdedents⟩ := h.ledger
  rw [h.rest_eq_of_stays hstays] at hindents
  have hpending : w.state.pending.toList.length ≤ 1 := Option.length_toList_le
  have hdepth : 0 < u.state.levels.depth := Nat.succ_pos _
  omega

end Rounds

theorem filterMap_visit? (rounds : List Round) :
    (rounds.filterMap Round.visit?).filterMap Visit.mark = rounds.filterMap Round.mark := by
  rw [List.filterMap_filterMap]
  congr 1
  funext r
  rw [Round.visit?]
  cases r.mark <;> rfl

/-- **The plain host is not trapped.** Whatever it accepts at each call, it stops, and the line
feeds of the text and the levels at the start bound the marks it gets. It moves on at every line
break. -/
theorem walk_bounded (accepts : Nat → MarkSet) (s : State) (text : List Char) :
    let start : Walker := ⟨0, s, ⟨0, text⟩⟩
    ((walk accepts s text).filterMap Visit.mark).length ≤
      3 * text.count '\n' + s.levels.depth + 1 ∧
    (∃ rounds last, Rounds accepts start rounds last ∧ last.Stops accepts ∧
      walk accepts s text = rounds.filterMap Round.visit? ++
        [⟨last.call, none, last.place.offset, (last.round accepts).behind.state⟩]) ∧
    (∀ rounds u, Rounds accepts start rounds u → ∀ r ∈ rounds, r.mark = some .newline →
      r.before.place.offset < r.behind.place.offset) ∧
    ∀ front stretch u, Rounds accepts start (front ++ stretch) u →
      (∀ r ∈ stretch, r.behind.place.offset = r.before.place.offset) →
      (stretch.filterMap Round.mark).count .indent ≤ 1 ∧
      ∃ v, Rounds accepts start front v ∧
        (stretch.filterMap Round.mark).count .dedent ≤ v.state.levels.depth := by
  intro start
  obtain ⟨rounds, last, hrounds, hstops⟩ := exists_rounds accepts start
  have hwalk : walk accepts s text = rounds.filterMap Round.visit? ++
      [⟨last.call, none, last.place.offset, (last.round accepts).behind.state⟩] := by
    rw [← walkFrom_of_stops hstops]
    exact hrounds.walkFrom_eq
  refine ⟨?_, ⟨rounds, last, hrounds, hstops, hwalk⟩, ?_, ?_⟩
  · rw [hwalk, List.filterMap_append, filterMap_visit?, List.filterMap_cons_none rfl,
      List.filterMap_nil, List.append_nil]
    exact hrounds.length_marks_le
  · exact fun rounds u h r hr hmark => h.lt_offset_of_newline hr hmark
  · intro front stretch u h hstays
    obtain ⟨v, hfront, hstretch⟩ := h.split
    obtain ⟨hindents, hdedents⟩ := hstretch.counts_of_stays hstays
    exact ⟨hindents, v, hfront, hdedents⟩

-- The bound is reached where a width is pending at the end of the text.
example : (walk (fun _ => .full) ⟨.base, some 4⟩ []).map Visit.mark =
    [some .indent, some .dedent, none] := by decide +kernel

end Host

end Offside
