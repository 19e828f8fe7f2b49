import Mathlib.Data.List.Forall2
import Offside.Proofs.HostAgreement

/-! Units of a host's input that layout does not look at. They may be the code of a character or of
none; whatever they are, the host's scanner finds the same marks and drives the lexer in the same
way, and takes none of them for the end of the input. -/

namespace Offside.Host

/-- The codes of the characters that layout looks at. -/
def layoutCodes : List Int := [' ', '\t', '\n', '\r'].map fun c => (c.toNat : Int)

/-- A unit that layout does not look at. It need not be the code of a character. -/
def IsPlain (n : Int) : Prop := n ∉ layoutCodes

instance (n : Int) : Decidable (IsPlain n) := inferInstanceAs (Decidable (_ ∉ _))

/-- One unit stands for the other: they are the same, or both are plain. -/
def StandsFor (m n : Int) : Prop := m = n ∨ IsPlain m ∧ IsPlain n

theorem isPlain_iff {n : Int} : IsPlain n ↔ Glyph.ofCode n = .other := by
  rw [IsPlain, layoutCodes, Glyph.ofCode]
  split_ifs <;> simp_all

theorem isPlain_of_charOf?_eq_none {n : Int} (h : Lexer.charOf? n = none) : IsPlain n := by
  intro hmem
  obtain ⟨c, -, rfl⟩ := List.mem_map.1 hmem
  rw [Lexer.charOf?_eq_some_iff.2 rfl] at h
  cases h

theorem StandsFor.ofCode_eq {m n : Int} (h : StandsFor m n) : Glyph.ofCode n = Glyph.ofCode m := by
  rcases h with rfl | ⟨hm, hn⟩
  · rfl
  · rw [isPlain_iff.1 hm, isPlain_iff.1 hn]

theorem scan_of_standsFor {units units' : List Int} (h : List.Forall₂ StandsFor units units')
    (accept : MarkSet) (s : State) :
    Offside.scan Glyph.ofCode accept s units' = Offside.scan Glyph.ofCode accept s units := by
  have hglyphs : units'.map Glyph.ofCode = units.map Glyph.ofCode := by
    induction h with
    | nil => rfl
    | cons hunit _ ih => rw [List.map_cons, List.map_cons, hunit.ofCode_eq, ih]
  rw [← scan_map, hglyphs, scan_map]

/-! ### Two lexers -/

/-- A lexer that differs from the given one in plain units ahead and in what it shows at the end. -/
inductive Lexer.Alike (l : Lexer) : Lexer → Prop where
  | mk {units : List Int} (endUnit : Int) (hunits : List.Forall₂ StandsFor l.rest units) :
      Alike l { l with rest := units, endUnit }

/-- A lexer without what is ahead of it. -/
def Lexer.past (l : Lexer) : Lexer := { l with rest := [], endUnit := 0 }

namespace Lexer.Alike

variable {l l' : Lexer}

theorem past_eq (h : Alike l l') : l'.past = l.past := by
  cases h
  rfl

theorem rest (h : Alike l l') : List.Forall₂ StandsFor l.rest l'.rest := by
  cases h with
  | mk endUnit hunits => exact hunits

theorem advance (h : Alike l l') (skip : Bool) : Alike (l.advance skip) (l'.advance skip) := by
  obtain ⟨rest, pos, start, markedEnd, symbol, e, calls⟩ := l
  cases h with
  | mk endUnit hunits =>
      cases hunits with
      | nil => exact .mk endUnit .nil
      | cons hunit hunits => exact .mk endUnit hunits

theorem markEnd (h : Alike l l') : Alike l.markEnd l'.markEnd := by
  cases h with
  | mk endUnit hunits => exact .mk (l := l.markEnd) endUnit hunits

theorem report (h : Alike l l') (symbol : UInt16) :
    Alike { l with resultSymbol := symbol } { l' with resultSymbol := symbol } := by
  cases h with
  | mk endUnit hunits => exact .mk (l := { l with resultSymbol := symbol }) endUnit hunits

theorem skip (h : Alike l l') (n : Nat) : Alike (l.skip n) (l'.skip n) := by
  induction n generalizing l l' with
  | zero => exact h
  | succ n ih => exact ih (h.advance true)

theorem behind (h : Alike l l') (m : Mark) (n : Nat) : Alike (l.behind m n) (l'.behind m n) := by
  cases m with
  | newline => exact (h.skip n).markEnd.report _
  | indent => exact (h.skip n).report _
  | dedent => exact (h.skip n).report _

/-- A call finds the same mark, leaves the same state, and leaves lexers that are alike. -/
theorem scan (h : Alike l l') (accept : MarkSet) (s : State) :
    (l'.scan accept s).1 = (l.scan accept s).1 ∧ (l'.scan accept s).2.1 = (l.scan accept s).2.1 ∧
      Alike (l.scan accept s).2.2 (l'.scan accept s).2.2 := by
  rw [Lexer.scan, Lexer.scan, scan_of_standsFor h.rest]
  generalize Offside.scan Glyph.ofCode accept s l.rest = answer
  obtain ⟨mark, t, consumed⟩ := answer
  cases mark with
  | none => exact ⟨rfl, rfl, h⟩
  | some m => exact ⟨rfl, rfl, h.behind m consumed⟩

end Lexer.Alike

/-! ### A run -/

/-- What a host does: it moves its lexer itself, or asks for a mark. -/
inductive Deed where
  | advance (skip : Bool)
  | markEnd
  | ask (handle : Option Nat) (flags : Option (List Bool))

/-- Whether a mark is found, the states and the lexer. -/
def Deed.run (r : Registry) (l : Lexer) : Deed → Bool × Registry × Lexer
  | advance skip => (false, r, l.advance skip)
  | markEnd => (false, r, l.markEnd)
  | ask handle flags =>
    let (found, r, l') := r.ask handle (some l) flags
    (found, r, l'.getD l)

theorem Deed.run_ask (r : Registry) (l : Lexer) (handle : Option Nat) (flags : Option (List Bool)) :
    (ask handle flags).run r l =
      match r.get? handle, flags with
      | some s, some flags =>
        let (found, t, l') := l.scan (.ofFlags flags) s
        (found, r.put handle (some t), l')
      | _, _ => (false, r, l) := by
  rw [run, Registry.ask]
  cases hstate : r.get? handle with
  | none => simp only [Registry.scan, hstate, Option.getD_some]
  | some s =>
      cases flags with
      | none => simp only [Registry.scan, hstate, Option.map_none, Option.getD_some]
      | some flags => simp only [Registry.scan, hstate, Option.map_some, Option.getD_some]

/-- What each of some deeds comes to. -/
def trace (r : Registry) (l : Lexer) : List Deed → List (Bool × Registry × Lexer)
  | [] => []
  | d :: deeds =>
    let (found, r, l) := d.run r l
    (found, r, l) :: trace r l deeds

/-- All that a deed comes to but what is ahead of the lexer. -/
def seen (answer : Bool × Registry × Lexer) : Bool × Registry × Lexer :=
  (answer.1, answer.2.1, answer.2.2.past)

variable {l l' : Lexer}

theorem Lexer.Alike.run (h : Alike l l') (r : Registry) (d : Deed) :
    (d.run r l').1 = (d.run r l).1 ∧ (d.run r l').2.1 = (d.run r l).2.1 ∧
      Alike (d.run r l).2.2 (d.run r l').2.2 := by
  cases d with
  | advance skip => exact ⟨rfl, rfl, h.advance skip⟩
  | markEnd => exact ⟨rfl, rfl, h.markEnd⟩
  | ask handle flags =>
      rw [Deed.run_ask, Deed.run_ask]
      cases r.get? handle with
      | none => exact ⟨rfl, rfl, h⟩
      | some s =>
          cases flags with
          | none => exact ⟨rfl, rfl, h⟩
          | some flags =>
              obtain ⟨hfound, hleft, halike⟩ := h.scan (.ofFlags flags) s
              refine ⟨hfound, ?_, halike⟩
              dsimp only
              rw [hleft]

theorem Lexer.Alike.trace_eq (h : Alike l l') (r : Registry) (deeds : List Deed) :
    (trace r l' deeds).map seen = (trace r l deeds).map seen := by
  induction deeds generalizing r l l' with
  | nil => rfl
  | cons d deeds ih =>
      obtain ⟨hfound, hstates, halike⟩ := h.run r d
      rw [trace, trace]
      dsimp only
      rw [List.map_cons, List.map_cons, seen, seen, hfound, hstates, halike.past_eq, ih halike]

/-! ### One call -/

/-- Before a plain unit a call does no more than settle what is pending. -/
theorem Lexer.scan_of_plain {n : Int} {rest : List Int} (hrest : l.rest = n :: rest)
    (hn : IsPlain n) (accept : MarkSet) (s : State) :
    l.scan accept s = report ((s.settle accept).1, (s.settle accept).2, l) := by
  have hsettles := s.settles_settle accept
  cases hmark : (s.settle accept).1 with
  | some m =>
      rw [hmark] at hsettles
      have hne : m ≠ .newline := fun h => hsettles.ne_newline (congrArg some h)
      rw [scan, scan_of_settle_some (Prod.ext hmark rfl)]
      dsimp only
      rw [behind_of_still hne, report]
  | none =>
      have hscan : Offside.scan Glyph.ofCode accept s l.rest = ⟨none, (s.settle accept).2, 0⟩ := by
        rw [hmark] at hsettles
        rw [← scan_of_settle_none (Prod.ext hmark rfl), hrest]
        exact scan_of_settled hsettles.settle_eq (by simp [isPlain_iff.1 hn]) rest
      rw [scan, hscan, report]

/-- A call is over after one step for each unit that is left, and one to end the mark. -/
theorem Lexer.length_calls_scan_le (accept : MarkSet) (s : State) (l : Lexer) :
    (l.scan accept s).2.2.calls.length ≤ l.calls.length + l.rest.length + 1 := by
  have hle := consumed_scan_le Glyph.ofCode accept s l.rest
  have hskip (n : Nat) : (l.skip n).calls.length = n + l.calls.length := by
    rw [calls_skip, List.length_append, List.length_replicate]
  rw [scan]
  generalize Offside.scan Glyph.ofCode accept s l.rest = answer at hle ⊢
  obtain ⟨mark, t, consumed⟩ := answer
  dsimp only at hle ⊢
  cases mark with
  | none => dsimp only; omega
  | some m =>
      have hbehind : (l.behind m consumed).calls.length ≤ (l.skip consumed).calls.length + 1 := by
        cases m with
        | newline => exact Nat.le_refl _
        | indent => exact Nat.le_succ _
        | dedent => exact Nat.le_succ _
      rw [hskip] at hbehind
      dsimp only
      omega

/-- **Layout sees four characters alone.** Whatever plain units stand for other plain ones, the host
finds the same marks and drives its lexer in the same way. No such unit is taken for the end, and
each call is over in time. -/
theorem plain_units_unseen (r : Registry) {l l' : Lexer} (h : l.Alike l') (deeds : List Deed) :
    (trace r l' deeds).map seen = (trace r l deeds).map seen ∧
      (∀ n, Lexer.charOf? n = none → IsPlain n) ∧
      (∀ (before : Lexer) (n : Int) (rest : List Int), before.rest = n :: rest → IsPlain n →
        ∀ accept s, before.scan accept s =
          Lexer.report ((s.settle accept).1, (s.settle accept).2, before)) ∧
      ∀ (before : Lexer) accept s,
        before.scan accept s = Lexer.report (Lookahead.scan accept s before) ∧
          (before.scan accept s).2.2.calls.length ≤ before.calls.length + before.rest.length + 1 :=
  ⟨h.trace_eq r deeds, fun _ => isPlain_of_charOf?_eq_none,
    fun _ _ _ hrest hn accept s => Lexer.scan_of_plain hrest hn accept s,
    fun before accept s =>
      ⟨before.scan_eq_lookahead accept s, before.length_calls_scan_le accept s⟩⟩

/-- A line with one level, that ends in a letter or in what is no character. Before either no level
is closed, and behind it the level is. -/
theorem plain_units_unseen_one_level :
    let r : Registry := ⟨#[some .fresh]⟩
    let l : Lexer := .ofUnits [10, 32, 120] 0
    let l' : Lexer := .ofUnits [10, 32, -1] 10
    let ask : Deed := .ask (some 0) (some [true, true, true])
    let deeds := [ask, ask, ask, .advance false, ask]
    l.Alike l' ∧
      (trace r l' deeds).map (fun a => (a.1, a.2.2.resultSymbol, a.2.2.pos)) =
        [(true, 0, 2), (true, 1, 2), (false, 1, 2), (false, 1, 3), (true, 2, 3)] ∧
      (trace r l' deeds).map seen = (trace r l deeds).map seen := by
  intro r l l' ask deeds
  have halike : l.Alike l' :=
    .mk 10 (.cons (.inl rfl) (.cons (.inl rfl) (.cons (.inr (by decide)) .nil)))
  exact ⟨halike, by decide +kernel, (plain_units_unseen r halike deeds).1⟩

end Offside.Host
