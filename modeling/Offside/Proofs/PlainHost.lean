import Offside.Host.Walk
import Offside.Proofs.PieceCases
import Offside.Proofs.ScanCases
import Offside.Proofs.SessionRun

/-! The plain host asks for a mark at every character, and a session only between the pieces of the
text. Both find the same marks: a call inside a piece is declined, and leaves no more than the call
before the piece has left. -/

namespace Offside

/-- The mark of a token, where it ends and which levels are open behind it. -/
def Token.mark? (t : Token) : Option (Mark × Nat × List UInt16) :=
  match t.kind with
  | .mark m => some (m, t.span.stop, t.levels)
  | .content => none

namespace Host

/-- The mark of a visit, where it stands and which levels are open behind it. -/
def Visit.found? (v : Visit) : Option (Mark × Nat × List UInt16) :=
  v.mark.map fun m => (m, v.offset, v.state.levels.toList)

/-! ### The walk, call by call -/

section

variable {accepts : Nat → MarkSet} {call : Nat} {s t : State} {p : Place} {n : Nat}

theorem walkFrom_onto_of_mark {m : Mark}
    (h : scan Glyph.ofChar (accepts call) s p.rest = ⟨some m, t, n⟩) (seen : List Visit) :
    walkFrom accepts seen call s p =
      walkFrom accepts (⟨call, some m, (p.skip n).offset, t⟩ :: seen) (call + 1) t (p.skip n) := by
  rw [walkFrom, h]

theorem walkFrom_onto_of_declined
    (h : scan Glyph.ofChar (accepts call) s p.rest = ⟨none, t, n⟩) (hrest : p.rest ≠ [])
    (seen : List Visit) :
    walkFrom accepts seen call s p = walkFrom accepts seen (call + 1) t (p.skip 1) := by
  rw [walkFrom.eq_def, h]
  dsimp only
  split
  · contradiction
  · rfl

theorem walkFrom_onto_of_end (h : scan Glyph.ofChar (accepts call) s p.rest = ⟨none, t, n⟩)
    (hrest : p.rest = []) (seen : List Visit) :
    walkFrom accepts seen call s p = seen.reverse ++ [⟨call, none, p.offset, t⟩] := by
  rw [walkFrom.eq_def, h]
  dsimp only
  split
  · exact List.reverse_cons
  · rename_i hcons
    rw [hrest] at hcons
    cases hcons

/-- What came before a call makes no difference to what comes behind it. -/
theorem walkFrom_onto (seen : List Visit) (call : Nat) (s : State) (p : Place) :
    walkFrom accepts seen call s p = seen.reverse ++ walkFrom accepts [] call s p := by
  induction hw : 3 * p.rest.length + s.weight using Nat.strongRecOn
    generalizing seen call s p with
  | ind w ih =>
      subst hw
      generalize hscan : scan Glyph.ofChar (accepts call) s p.rest = o
      obtain ⟨mark, t, n⟩ := o
      cases mark with
      | some m =>
          have hlt := weight_lt_of_scan hscan
          rw [← List.length_drop, ← Place.rest_skip] at hlt
          rw [walkFrom_onto_of_mark hscan, walkFrom_onto_of_mark hscan [], ih _ hlt _ _ t _ rfl,
            ih _ hlt [_] _ t _ rfl, List.reverse_cons, List.append_assoc]
          rfl
      | none =>
          by_cases hrest : p.rest = []
          · rw [walkFrom_onto_of_end hscan hrest, walkFrom_onto_of_end hscan hrest]
            rfl
          · have hle := weight_le_of_scan hscan
            have hpos := List.length_pos_iff.2 hrest
            have hlt : 3 * (p.skip 1).rest.length + t.weight < 3 * p.rest.length + s.weight := by
              rw [Place.rest_skip, List.length_drop]
              omega
            rw [walkFrom_onto_of_declined hscan hrest, walkFrom_onto_of_declined hscan hrest,
              ih _ hlt seen _ t _ rfl]

theorem walkFrom_of_mark {m : Mark}
    (h : scan Glyph.ofChar (accepts call) s p.rest = ⟨some m, t, n⟩) :
    walkFrom accepts [] call s p =
      ⟨call, some m, (p.skip n).offset, t⟩ :: walkFrom accepts [] (call + 1) t (p.skip n) := by
  rw [walkFrom_onto_of_mark h, walkFrom_onto]
  rfl

end

/-! ### Calls inside a piece -/

variable {accept : MarkSet} {s t : State}

theorem walkFrom_skip (h : t.settle accept = (none, t)) {p : Place} {taken rest : List Char}
    (htext : p.rest = taken ++ rest) (htaken : ∀ c ∈ taken, c ≠ '\n') (call : Nat) :
    walkFrom (fun _ => accept) [] call t p =
      walkFrom (fun _ => accept) [] (call + taken.length) t (p.skip taken.length) := by
  induction taken generalizing p call with
  | nil => rw [List.length_nil, Place.skip_zero, Nat.add_zero]
  | cons c taken ih =>
      rw [List.forall_mem_cons] at htaken
      have hscan : scan Glyph.ofChar accept t p.rest = ⟨none, t, 0⟩ := by
        rw [htext]
        exact scan_of_settled h (fun hc => htaken.1 (Glyph.ofChar_eq_lineFeed_iff.1 hc)) _
      have hrest : p.rest ≠ [] := by
        rw [htext]
        exact List.cons_ne_nil _ _
      have hbehind : (p.skip 1).rest = taken ++ rest := by
        rw [Place.rest_skip, htext]
        rfl
      rw [walkFrom_onto_of_declined hscan hrest, ih hbehind htaken.2, Place.skip_skip,
        List.length_cons, Nat.add_comm 1, Nat.add_assoc, Nat.add_comm 1]

/-- Where a call is declined, so are the calls inside the piece that follows. -/
theorem walkFrom_of_declined {call n : Nat} {p : Place} {c : Char} {cs : List Char}
    (h : scan Glyph.ofChar accept s p.rest = ⟨none, t, n⟩) (hrest : p.rest = c :: cs)
    (skipComments : Bool) :
    ∃ call', walkFrom (fun _ => accept) [] call s p =
      walkFrom (fun _ => accept) [] call' t
        (p.skip (Piece.atHead skipComments c cs).length) := by
  obtain ⟨taken, rest, rfl, hlength, htaken⟩ := Piece.exists_taken skipComments c cs
  have hsettled := (settles_of_scan_none h).settle_eq
  have hne : p.rest ≠ [] := by
    rw [hrest]
    exact List.cons_ne_nil _ _
  have hbehind : (p.skip 1).rest = taken ++ rest := by
    rw [Place.rest_skip, hrest]
    rfl
  refine ⟨call + 1 + taken.length, ?_⟩
  rw [walkFrom_onto_of_declined h hne, walkFrom_skip hsettled hbehind htaken, Place.skip_skip,
    hlength, List.length_cons, Nat.add_comm 1 taken.length]

end Host

namespace Session

open Host

theorem marks_drain (s : Session) (hcheckpoint : s.config.checkpoint = false) (call : Nat) :
    s.drain.1.filterMap Token.mark? =
      (walkFrom (fun _ => s.config.accept) [] call s.state s.place).filterMap Visit.found? := by
  induction s using run_induction generalizing call with
  | mark s m t n hscan hstep ih =>
      rw [held_of_no_checkpoint hcheckpoint] at hscan
      rw [drain_of_token hstep, walkFrom_of_mark hscan]
      exact congrArg (_ :: ·) (ih hcheckpoint (call + 1))
  | content s t k n c cs hscan hrest hpiece hstep ih =>
      rw [held_of_no_checkpoint hcheckpoint] at hscan
      obtain ⟨call', hwalk⟩ := walkFrom_of_declined hscan hrest s.config.skipComments
      rw [hpiece] at hwalk
      rw [drain_of_token hstep, hwalk]
      exact ih hcheckpoint call'
  | dropped s t k c cs hscan hrest hpiece hstep ih =>
      rw [held_of_no_checkpoint hcheckpoint] at hscan
      obtain ⟨call', hwalk⟩ := walkFrom_of_declined hscan hrest s.config.skipComments
      rw [drain_of_dropped hstep, hwalk]
      exact ih hcheckpoint call'
  | finished s t k hscan hrest hstep =>
      rw [held_of_no_checkpoint hcheckpoint] at hscan
      rw [drain_of_finished hstep, walkFrom_onto_of_end hscan hrest]
      rfl

/-- **A session finds the marks that the plain host finds.** Both start with the same state and
accept the same marks everywhere; the session saves no state, and drops comments or keeps them. -/
theorem marks_eq_walk (accept : MarkSet) (capacity : Nat) (skipComments : Bool) (s : State)
    (text : List Char) :
    (Session.mk ⟨accept, false, capacity, skipComments⟩ ⟨0, text⟩ s).drain.1.filterMap Token.mark? =
      (walk (fun _ => accept) s text).filterMap Visit.found? :=
  marks_drain _ rfl 0

end Session

end Offside
