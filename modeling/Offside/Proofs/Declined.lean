import Offside.Proofs.Lookahead

/-! Calls that give no mark leave no trace. The state may be another one afterwards, but no call
tells the two apart, so a parser may drop the new state as well as keep it. -/

namespace Offside

namespace Lookahead

variable {κ : Type} [Lookahead κ] {accept : MarkSet} {s t : State} {c : κ}

theorem scan_congr (h : s.reduced = t.reduced) : scan accept s c = scan accept t c := by
  rw [scan_eq, scan_eq, Offside.scan_congr h]

/-- A call without a mark leaves the reader as it is, and a state that no call tells from the one
before. -/
theorem scan_of_declined (h : (scan accept s c).1 = none) :
    (scan accept s c).2.2 = c ∧ (scan accept s c).2.1.reduced = s.reduced := by
  rw [scan_eq] at h ⊢
  refine ⟨?_, reduced_scan_of_mark_none h⟩
  change (Offside.scan id accept s (glyphs c)).mark = none at h
  rw [answer, h]

end Lookahead

namespace Host.Lexer

variable {accept : MarkSet} {s t : State} {l : Lexer}

theorem scan_congr (h : s.reduced = t.reduced) : l.scan accept s = l.scan accept t := by
  rw [scan_eq_lookahead, Lookahead.scan_congr h, ← scan_eq_lookahead]

theorem report_of_none {call : Option Mark × State × Lexer} (h : call.1 = none) :
    report call = (false, call.2) := by
  obtain ⟨mark, u, l⟩ := call
  obtain rfl : mark = none := h
  rfl

theorem mark_report (call : Option Mark × State × Lexer) :
    (if (report call).1 then Mark.ofSymbol? (report call).2.2.resultSymbol else none) = call.1 := by
  obtain ⟨mark, u, l⟩ := call
  cases mark with
  | none => rfl
  | some m => exact Mark.ofSymbol?_symbol m

theorem state_report (call : Option Mark × State × Lexer) : (report call).2.1 = call.2.1 := by
  obtain ⟨mark, u, l⟩ := call
  cases mark <;> rfl

theorem scan_of_not_found (h : (l.scan accept s).1 = false) :
    (l.scan accept s).2.2 = l ∧ (l.scan accept s).2.1.reduced = s.reduced := by
  have hmark := mark_report (Lookahead.scan accept s l)
  rw [scan_eq_lookahead] at h ⊢
  rw [h, if_neg Bool.false_ne_true] at hmark
  rw [report_of_none hmark.symm]
  exact Lookahead.scan_of_declined hmark.symm

end Host.Lexer

namespace Reader

variable {accept : MarkSet} {s t : State} {r : Reader} {o o' : Outcome}

/-- What layout sees of all that is left to read. -/
def glyphs : Reader → List Glyph
  | text cursor => cursor.glyphs
  | host l => l.glyphs

/-- The reader behind an outcome. -/
def behind (o : Outcome) : Reader → Reader
  | text cursor => text (Lookahead.answer o cursor).2.2
  | host l => host (Host.Lexer.report (Lookahead.answer o l)).2.2

/-- A call depends on the state only through its outcome. -/
theorem scan_eq (accept : MarkSet) (s : State) (r : Reader) :
    r.scan accept s =
      ((Offside.scan id accept s r.glyphs).mark, (Offside.scan id accept s r.glyphs).state,
        r.behind (Offside.scan id accept s r.glyphs)) := by
  cases r with
  | text cursor =>
      rw [scan, Cursor.scan_eq_lookahead, Lookahead.scan_eq]
      rfl
  | host l =>
      have hmark := Host.Lexer.mark_report (Lookahead.scan accept s l)
      have hstate := Host.Lexer.state_report (Lookahead.scan accept s l)
      rw [Lookahead.scan_eq] at hmark hstate
      rw [scan, Host.Lexer.scan_eq_lookahead, Lookahead.scan_eq]
      exact Prod.ext hmark (Prod.ext hstate rfl)

theorem behind_congr (hmark : o'.mark = o.mark) (hconsumed : o'.consumed = o.consumed)
    (r : Reader) : r.behind o' = r.behind o := by
  cases r with
  | text cursor => rw [behind, behind, Lookahead.answer, Lookahead.answer, hmark, hconsumed]
  | host l =>
      rw [behind, behind, Lookahead.answer, Lookahead.answer, hmark, hconsumed]
      cases o.mark <;> rfl

theorem behind_of_none (h : o.mark = none) (r : Reader) : r.behind o = r := by
  cases r with
  | text cursor => rw [behind, Lookahead.answer, h]
  | host l =>
      rw [behind, Lookahead.answer, h]
      rfl

theorem scan_congr (h : s.reduced = t.reduced) : r.scan accept s = r.scan accept t := by
  rw [scan_eq, scan_eq, Offside.scan_congr h]

theorem scan_of_declined (h : (r.scan accept s).1 = none) :
    (r.scan accept s).2.2 = r ∧ (r.scan accept s).2.1.reduced = s.reduced := by
  rw [scan_eq] at h ⊢
  exact ⟨behind_of_none h r, reduced_scan_of_mark_none h⟩

end Reader

/-- What some calls come to, one after the other: the mark, the state and the reader behind each. -/
def scanTrace (s : State) : List (MarkSet × Reader) → List (Option Mark × State × Reader)
  | [] => []
  | (accept, r) :: calls => r.scan accept s :: scanTrace (r.scan accept s).2.1 calls

theorem scanTrace_congr {s t : State} (h : s.reduced = t.reduced)
    (calls : List (MarkSet × Reader)) : scanTrace s calls = scanTrace t calls := by
  cases calls with
  | nil => rfl
  | cons call calls =>
      obtain ⟨accept, r⟩ := call
      rw [scanTrace, scanTrace, Reader.scan_congr h]

/-- What a parser asks for next, and where, in view of the answers so far: each is a mark, if there
was one, and the reader behind the call. -/
abbrev Inquiry := List (Option Mark × Reader) → MarkSet × Reader

/-- The answers to so many calls. A parser keeps the state behind every call, or else it drops the
state behind a call that gives no mark and goes on with the one before. -/
def answers (keeps : Bool) (ask : Inquiry) (s : State) (seen : List (Option Mark × Reader)) :
    Nat → List (Option Mark × Reader)
  | 0 => seen
  | n + 1 =>
    let (accept, r) := ask seen
    let (mark, t, behind) := r.scan accept s
    answers keeps ask (if keeps || mark.isSome then t else s) (seen ++ [(mark, behind)]) n

theorem answers_congr (ask : Inquiry) {s t : State} (h : s.reduced = t.reduced)
    (seen : List (Option Mark × Reader)) (n : Nat) :
    answers true ask s seen n = answers false ask t seen n := by
  induction n generalizing s t seen with
  | zero => rfl
  | succ n ih =>
      rw [answers, answers]
      obtain ⟨accept, r⟩ := ask seen
      dsimp only
      rw [Reader.scan_congr h]
      apply ih
      cases hmark : (r.scan accept t).1 with
      | none => exact (Reader.scan_of_declined hmark).2
      | some m => rfl

/-- **A call without a mark cannot be observed.** The reader is where it was, and every further call
comes to the same from the state behind the call as from the one before. -/
theorem declined_unobservable {accept : MarkSet} {s : State} {r : Reader}
    (h : (r.scan accept s).1 = none) :
    (r.scan accept s).2.2 = r ∧
      (∀ calls, scanTrace (r.scan accept s).2.1 calls = scanTrace s calls) ∧
      (∀ (κ : Type) [Lookahead κ] (accept' : MarkSet) (c : κ),
        Lookahead.scan accept' (r.scan accept s).2.1 c = Lookahead.scan accept' s c) ∧
      ∀ (ask : Inquiry) (n : Nat), answers true ask s [] n = answers false ask s [] n := by
  obtain ⟨hreader, hreduced⟩ := Reader.scan_of_declined h
  exact ⟨hreader, scanTrace_congr hreduced, fun _ _ _ _ => Lookahead.scan_congr hreduced,
    fun ask => answers_congr ask rfl []⟩

/-- A width that is that of the base is forgotten by the call, and is not missed. -/
theorem declined_unobservable_at_base :
    let r : Reader := .text (.ofOffset ['x'] 0)
    let s : State := ⟨.base, some 0⟩
    (r.scan .full s).1 = none ∧ (r.scan .full s).2.1 ≠ s ∧ (r.scan .full s).2.2 = r ∧
      (∀ calls, scanTrace (r.scan .full s).2.1 calls = scanTrace s calls) ∧
      (∀ (κ : Type) [Lookahead κ] (accept' : MarkSet) (c : κ),
        Lookahead.scan accept' (r.scan .full s).2.1 c = Lookahead.scan accept' s c) ∧
      ∀ (ask : Inquiry) (n : Nat), answers true ask s [] n = answers false ask s [] n := by
  intro r s
  have hmark : (r.scan .full s).1 = none := by decide
  exact ⟨hmark, by decide, declined_unobservable hmark⟩

end Offside
