import Offside.Cursor
import Offside.Host.Lexer
import Offside.Proofs.ScanCases
import Offside.Saved.Decode

/-! Everything that can be done to a layout state, in any order: the levels always start at the base
and grow, and each call of the scanner has one of four effects. Along a run of calls the depth is
the balance of the marks. -/

namespace Offside

/-- What one call may do to a state and to what it reads from. The propositions say that nothing has
been read, and that something has. -/
inductive Effect (accept : MarkSet) (s t : State) (still moved : Prop) : Option Mark → Prop where
  | indent {w : UInt16} (haccept : accept.indent = true) (hpending : s.pending = some w)
      (hwider : s.levels.top < w) (hlevels : t.levels.toList = s.levels.toList ++ [w])
      (hcleared : t.pending = none) (hstill : still) : Effect accept s t still moved (some .indent)
  | dedent (haccept : accept.dedent = true)
      (hlevels : t.levels.toList ++ [s.levels.top] = s.levels.toList)
      (hpending : t.pending = s.pending ∨ t.pending = none) (hstill : still) :
      Effect accept s t still moved (some .dedent)
  | newline {w : UInt16} (haccept : accept.newline = true) (hlevels : t.levels = s.levels)
      (hpending : t.pending = some w) (hmoved : moved) :
      Effect accept s t still moved (some .newline)
  | none (hlevels : t.levels = s.levels)
      (hpending : t.pending = s.pending ∨ s.pending = some s.levels.top ∧ t.pending = none)
      (hstill : still) : Effect accept s t still moved none

theorem Effect.imp {accept : MarkSet} {s t : State} {still moved still' moved' : Prop}
    {m : Option Mark} (h : Effect accept s t still moved m) (hstill : still → still')
    (hmoved : moved → moved') : Effect accept s t still' moved' m := by
  cases h with
  | indent ha hp hw hl hc h => exact .indent ha hp hw hl hc (hstill h)
  | dedent ha hl hp h => exact .dedent ha hl hp (hstill h)
  | newline ha hl hp h => exact .newline ha hl hp (hmoved h)
  | none hl hp h => exact .none hl hp (hstill h)

theorem Levels.isOpen_of_lt_top {l : Levels} {w : UInt16} (h : w < l.top) : l.isOpen = true := by
  rw [isOpen_eq_true_iff, ← top_pos_iff]
  exact Nat.lt_of_le_of_lt (Nat.zero_le _) h

/-- Without a mark, settling only forgets a width that is that of the innermost level. -/
theorem State.Settles.pending_eq {accept : MarkSet} {s t : State} (h : Settles accept s none t) :
    t.pending = s.pending ∨ s.pending = some s.levels.top ∧ t.pending = none := by
  cases h with
  | clears hpending => exact .inr ⟨hpending, rfl⟩
  | waits => exact .inl rfl

section Scan

variable {α : Type} (glyph : α → Glyph) (accept : MarkSet) (s : State) (input : List α)

theorem effect_scan :
    Effect accept s (scan glyph accept s input).state
      ((scan glyph accept s input).mark ≠ some .newline ∧ (scan glyph accept s input).consumed = 0)
      ((scan glyph accept s input).mark = some .newline ∧
        0 < (scan glyph accept s input).consumed ∧
        (scan glyph accept s input).consumed ≤ input.length)
      (scan glyph accept s input).mark := by
  have hcases := scanCases_scan glyph accept s input
  generalize scan glyph accept s input = o at hcases ⊢
  cases hcases with
  | settled hsettles =>
      cases hsettles with
      | opens hpending haccept hwider =>
          exact .indent haccept hpending hwider (Levels.toList_push hwider) rfl ⟨by simp, rfl⟩
      | @closes w hpending haccept hnarrower =>
          have hopen := Levels.isOpen_of_lt_top hnarrower
          refine .dedent haccept (Levels.toList_close_append hopen) ?_ ⟨by simp, rfl⟩
          dsimp only
          split
          · exact .inr rfl
          · exact .inl hpending.symm
  | ended hsettles _ haccept hopen =>
      refine .dedent haccept ?_ (hsettles.pending_eq.imp_right And.right) ⟨by simp, rfl⟩
      rw [hsettles.levels_eq] at hopen
      rw [State.close, hsettles.levels_eq]
      exact Levels.toList_close_append hopen
  | @broken t c cs hsettles hinput haccept _ =>
      refine .newline haccept hsettles.levels_eq rfl ⟨rfl, ?_⟩
      rw [hinput]
      exact LineBreak.length_read glyph cs
  | declined hsettles =>
      exact .none hsettles.levels_eq hsettles.pending_eq ⟨by simp, rfl⟩

end Scan

namespace Cursor

variable {cursor : Cursor} {o : Outcome}

theorem skip_append (c : Char) (taken rest : List Char) (cursor : Cursor)
    (h : cursor.upcoming = some (c :: taken ++ rest)) :
    cursor.skip (c :: taken).length =
      ⟨cursor.pos + Text.byteLength (c :: taken), cursor.pos + Text.byteLength (c :: taken),
        cursor.marked, some rest⟩ := by
  induction taken generalizing c cursor with
  | nil =>
      simp only [List.length_cons, List.length_nil, skip, advance, h]
      simp
  | cons d taken ih =>
      rw [List.length_cons, skip, ih d (cursor.advance true)]
      all_goals simp only [advance, h]
      · simp [Nat.add_assoc]
      · rfl

theorem behind_of_still (hmark : o.mark ≠ some .newline) (hconsumed : o.consumed = 0) :
    cursor.behind o = cursor := by
  rw [behind]
  split
  · rename_i h
    exact absurd h hmark
  · rw [hconsumed, skip]

/-- A line break moves the cursor over characters, and the mark stands behind them. -/
theorem behind_of_moved {input : List Char} (hupcoming : cursor.upcoming = some input)
    (hmark : o.mark = some .newline) (hpos : 0 < o.consumed) (hle : o.consumed ≤ input.length) :
    ∃ taken rest, taken ≠ [] ∧ input = taken ++ rest ∧ taken.length = o.consumed ∧
      cursor.behind o = ⟨cursor.pos + Text.byteLength taken, cursor.pos + Text.byteLength taken,
        some (cursor.pos + Text.byteLength taken), some rest⟩ := by
  have hlength : (input.take o.consumed).length = o.consumed := by
    rw [List.length_take]
    omega
  have hinput := (List.take_append_drop o.consumed input).symm
  cases htaken : input.take o.consumed with
  | nil =>
      rw [htaken, List.length_nil] at hlength
      omega
  | cons c taken =>
      rw [htaken] at hlength hinput
      refine ⟨c :: taken, input.drop o.consumed, by simp, hinput, hlength, ?_⟩
      rw [behind, hmark]
      dsimp only
      have hskip := skip_append c taken _ cursor (hupcoming.trans (congrArg some hinput))
      rw [hlength] at hskip
      rw [hskip]
      rfl

end Cursor

namespace Host.Lexer

variable {l : Lexer}

theorem skip_append (taken rest : List Int) (l : Lexer) (h : l.rest = taken ++ rest) :
    (l.skip taken.length).rest = rest ∧ (l.skip taken.length).pos = l.pos + taken.length := by
  induction taken generalizing l with
  | nil => exact ⟨h, rfl⟩
  | cons n taken ih =>
      obtain ⟨hrest, hpos⟩ := ih (l.advance true) (by rw [advance, h]; rfl)
      rw [List.length_cons, skip]
      refine ⟨hrest, ?_⟩
      rw [hpos, advance, h]
      simp only [List.cons_append, List.isEmpty_cons, Bool.false_eq_true, if_false]
      omega

theorem behind_of_still {m : Mark} (hmark : m ≠ .newline) :
    l.behind m 0 = { l with resultSymbol := m.symbol } := by
  cases m with
  | newline => exact absurd rfl hmark
  | indent => rfl
  | dedent => rfl

theorem resultSymbol_behind (m : Mark) (n : Nat) : (l.behind m n).resultSymbol = m.symbol := by
  cases m <;> rfl

end Host.Lexer

/-- What a call reads from: a text, or the lexer of a host. -/
inductive Reader where
  | text (cursor : Cursor)
  | host (lexer : Host.Lexer)

namespace Reader

/-- One call. A host knows the mark by its number. -/
def scan (accept : MarkSet) (s : State) : Reader → Option Mark × State × Reader
  | text cursor =>
    let (mark, t, behind) := cursor.scan accept s
    (mark, t, text behind)
  | host lexer =>
    let (found, t, behind) := lexer.scan accept s
    (if found then Mark.ofSymbol? behind.resultSymbol else none, t, host behind)

/-- Nothing has been read; only the number of a mark may have been left for the host. -/
def Still : Reader → Reader → Prop
  | text cursor, text behind => behind = cursor
  | host lexer, host behind => behind = { lexer with resultSymbol := behind.resultSymbol }
  | _, _ => False

/-- Something has been read, and the reader stands behind it. -/
def Moved : Reader → Reader → Prop
  | text cursor, text behind => ∃ taken rest, taken ≠ [] ∧ cursor.upcoming = some (taken ++ rest) ∧
      behind.upcoming = some rest ∧ behind.pos = cursor.pos + Text.byteLength taken
  | host lexer, host behind => ∃ taken rest, taken ≠ [] ∧ lexer.rest = taken ++ rest ∧
      behind.rest = rest ∧ behind.pos = lexer.pos + taken.length
  | _, _ => False

def Affects (accept : MarkSet) (s : State) (r : Reader) (call : Option Mark × State × Reader) :
    Prop :=
  Effect accept s call.2.1 (r.Still call.2.2) (r.Moved call.2.2) call.1

theorem affects_text (accept : MarkSet) (s : State) (cursor : Cursor) :
    (text cursor).Affects accept s ((text cursor).scan accept s) := by
  have hstill (o : Outcome) (h : o.mark ≠ some .newline ∧ o.consumed = 0) :
      (text cursor).Still (text (cursor.behind o)) := Cursor.behind_of_still h.1 h.2
  rw [Affects, scan, Cursor.scan, Cursor.outcome]
  cases hupcoming : cursor.upcoming with
  | none =>
      -- Inside a character nothing is seen, and no line break can be read.
      refine (effect_scan id accept s [Glyph.other]).imp (hstill _) ?_
      exact fun hmoved => absurd hmoved.1 (mark_scan_other_ne_newline accept s)
  | some input =>
      refine (effect_scan Glyph.ofChar accept s input).imp (hstill _) ?_
      rintro ⟨hmark, hpos, hle⟩
      obtain ⟨taken, rest, hne, rfl, -, hbehind⟩ :=
        Cursor.behind_of_moved hupcoming hmark hpos hle
      refine ⟨taken, rest, hne, hupcoming, ?_, ?_⟩
      · dsimp only
        rw [hbehind]
      · dsimp only
        rw [hbehind]

theorem affects_host (accept : MarkSet) (s : State) (l : Host.Lexer) :
    (host l).Affects accept s ((host l).scan accept s) := by
  have heffect := effect_scan Glyph.ofCode accept s l.rest
  rw [Affects, scan, Host.Lexer.scan]
  generalize Offside.scan Glyph.ofCode accept s l.rest = o at heffect ⊢
  obtain ⟨mark, t, consumed⟩ := o
  cases mark with
  | none => exact heffect.imp (fun _ => rfl) (fun h => nomatch h.1)
  | some m =>
      dsimp only at heffect ⊢
      rw [if_pos rfl, Host.Lexer.resultSymbol_behind, Mark.ofSymbol?_symbol]
      refine heffect.imp ?_ ?_
      · rintro ⟨hmark, rfl⟩
        rw [Host.Lexer.behind_of_still (fun h => hmark (congrArg some h))]
        rfl
      · rintro ⟨hmark, hpos, hle⟩
        obtain rfl := Option.some.inj hmark
        have hlength : (l.rest.take consumed).length = consumed := by
          rw [List.length_take]
          omega
        have hskip := Host.Lexer.skip_append (l.rest.take consumed) (l.rest.drop consumed) l
          (List.take_append_drop consumed l.rest).symm
        rw [hlength] at hskip
        refine ⟨_, _, ?_, (List.take_append_drop consumed l.rest).symm, hskip.1, ?_⟩
        · intro hnil
          rw [hnil, List.length_nil] at hlength
          omega
        · rw [hlength]
          exact hskip.2

theorem affects_scan (accept : MarkSet) (s : State) (r : Reader) :
    r.Affects accept s (r.scan accept s) := by
  cases r with
  | text cursor => exact affects_text accept s cursor
  | host l => exact affects_host accept s l

end Reader

/-- What can be done to a layout state. -/
inductive Operation where
  | fresh
  | ofParts (widths : List UInt16) (pending : Option UInt16)
  | recover (bytes : List UInt8)
  /-- Decode it with care from any bytes; if they are defective, it stays as it is. -/
  | decode (bytes : List UInt8)
  | scan (accept : MarkSet) (r : Reader)

def Operation.apply (s : State) : Operation → State
  | fresh => .fresh
  | ofParts widths pending => .ofParts widths pending
  | recover bytes => .recover bytes
  | decode bytes =>
    match State.decode bytes with
    | .ok t => t
    | .error _ => s
  | scan accept r => (r.scan accept s).2.1

/-- The marks that some calls give, one after the other, and the state that they leave. -/
def scanAll (s : State) : List (MarkSet × Reader) → List (Option Mark) × State
  | [] => ([], s)
  | (accept, r) :: calls =>
    let (mark, t, _) := r.scan accept s
    let (marks, u) := scanAll t calls
    (mark :: marks, u)

theorem scanAll_cons (s : State) (accept : MarkSet) (r : Reader) (calls : List (MarkSet × Reader)) :
    scanAll s ((accept, r) :: calls) =
      ((r.scan accept s).1 :: (scanAll (r.scan accept s).2.1 calls).1,
        (scanAll (r.scan accept s).2.1 calls).2) := rfl

/-- The widths of levels: the base, and then ever wider ones. -/
def WellFormed (widths : List UInt16) : Prop :=
  widths.head? = some 0 ∧ widths.Pairwise (· < ·)

theorem Levels.wellFormed_toList (l : Levels) : WellFormed l.toList := ⟨rfl, l.pairwise_toList⟩

/-- One call changes the depth by one where it gives INDENT or DEDENT, and else not at all. -/
theorem Effect.depth_eq {accept : MarkSet} {s t : State} {still moved : Prop} {m : Option Mark}
    (h : Effect accept s t still moved m) :
    t.levels.depth + [m].count (some .dedent) = s.levels.depth + [m].count (some .indent) := by
  cases h with
  | indent _ _ _ hlevels =>
      have hlength := congrArg List.length hlevels
      rw [List.length_append, Levels.length_toList, Levels.length_toList] at hlength
      simpa using hlength
  | dedent _ hlevels =>
      have hlength := congrArg List.length hlevels
      rw [List.length_append, Levels.length_toList, Levels.length_toList] at hlength
      simpa using hlength
  | newline _ hlevels => simp [hlevels]
  | none hlevels => simp [hlevels]

theorem depth_scanAll (s : State) (calls : List (MarkSet × Reader)) :
    (scanAll s calls).2.levels.depth + (scanAll s calls).1.count (some .dedent) =
      s.levels.depth + (scanAll s calls).1.count (some .indent) := by
  induction calls generalizing s with
  | nil => rfl
  | cons call calls ih =>
      obtain ⟨accept, r⟩ := call
      have hone := Effect.depth_eq (r.affects_scan accept s)
      have hrest := ih (r.scan accept s).2.1
      rw [scanAll_cons]
      simp only [List.count_cons, List.count_nil] at hone ⊢
      omega

/-- **The levels are well formed after every operation, and each call has one of four effects.**
Along a run of calls, the depth grows by the number of INDENT less the number of DEDENT. -/
theorem wellFormed_and_affects (s : State) :
    (∀ ops : List Operation, WellFormed (ops.foldl Operation.apply s).levels.toList) ∧
      (∀ (accept : MarkSet) (r : Reader), r.Affects accept s (r.scan accept s)) ∧
      ∀ calls : List (MarkSet × Reader),
        (scanAll s calls).2.levels.depth + (scanAll s calls).1.count (some .dedent) =
          s.levels.depth + (scanAll s calls).1.count (some .indent) :=
  ⟨fun _ => Levels.wellFormed_toList _, fun accept r => r.affects_scan accept s, depth_scanAll s⟩

end Offside
