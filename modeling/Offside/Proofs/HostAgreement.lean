import Offside.Host.Registry
import Offside.Proofs.Lookahead

/-! A host's lexer and a cursor over the same text. The lexer counts units and the cursor bytes, and
they say differently that the input has ended; but call after call they find the same marks, leave
the same states and stand at the same places. -/

namespace Offside

/-- A text that is cut between two of its characters, to be read from there, and what a host shows
where it ends. -/
structure Opening where
  before : List Char
  after : List Char
  endUnit : Int

namespace Opening

def offset (o : Opening) : Nat := Text.byteLength o.before

def cursor (o : Opening) : Cursor := .ofOffset (o.before ++ o.after) o.offset

/-- The units of a host are code points. -/
def lexer (o : Opening) : Host.Lexer := .ofUnits (o.after.map fun c => (c.toNat : Int)) o.endUnit

/-- The byte offset is that of the place so many characters behind the cut. -/
def Counts (o : Opening) (offset chars : Nat) : Prop :=
  ∃ front back, o.after = front ++ back ∧ offset = o.offset + Text.byteLength front ∧
    chars = front.length

/-- The same text, but the host shows something else where it ends. -/
def ending (e : Int) (o : Opening) : Opening := { o with endUnit := e }

theorem counts_zero (o : Opening) : o.Counts o.offset 0 := ⟨[], o.after, rfl, rfl, rfl⟩

end Opening

/-- The cursor and the lexer stand at the same place, and so do the ends of their tokens. -/
structure Abreast (o : Opening) (c : Cursor) (l : Host.Lexer) : Prop where
  pos : o.Counts c.pos l.pos
  start : o.Counts c.start l.start
  marked : Option.Rel o.Counts c.marked l.markedEnd

/-- What a call does to the lexer of a host, by the mark it gives. The lexer is called for a line
break only: to skip each unit of that, and then to end the mark. -/
def Host.Lexer.Driven (m : Option Mark) (l l' : Lexer) : Prop :=
  match m with
  | none => l' = l
  | some .newline =>
    l'.resultSymbol = Mark.newline.symbol ∧ ∃ n, 0 < n ∧ l'.pos = l.pos + n ∧
      l'.calls = .markEnd :: (List.replicate n .skip ++ l.calls)
  | some m => l' = { l with resultSymbol := m.symbol }

/-- A call of the host's scanner comes to what a scan at the cursor comes to: whether there is a mark,
the state, and the places behind it. -/
structure Agrees (handle : Nat) (o : Opening) (l : Host.Lexer)
    (host : Bool × Host.Registry × Option Host.Lexer) (text : Option Mark × State × Cursor) :
    Prop where
  found : host.1 = text.1.isSome
  state : host.2.1.get? (some handle) = some text.2.1
  lexer : ∃ l', host.2.2 = some l' ∧ Abreast o text.2.2 l' ∧ l.Driven text.1 l'

/-- A new text is opened, or the scanner is called where the last call ended. -/
inductive Action where
  | start (o : Opening)
  | scan (flags : List Bool)

namespace Action

def onHost (handle : Nat) : Host.Registry × Host.Lexer → Action → Host.Registry × Host.Lexer
  | (r, _), start o => (r, o.lexer)
  | (r, l), scan flags =>
    let (_, r, l') := r.ask (some handle) (some l) (some flags)
    (r, l'.getD l)

def onText : State × Cursor → Action → State × Cursor
  | (s, _), start o => (s, o.cursor)
  | (s, c), scan flags => (c.scan (.ofFlags flags) s).2

/-- The text that is open afterwards. -/
def opening (o : Opening) : Action → Opening
  | start o' => o'
  | scan _ => o

def ending (e : Int) : Action → Action
  | start o => start (o.ending e)
  | scan flags => scan flags

end Action

/-! ### Places -/

namespace Host.Lexer

variable {l : Lexer}

theorem advance_of_rest {n : Int} {rest : List Int} (h : l.rest = n :: rest) :
    l.advance true =
      { l with rest, pos := l.pos + 1, start := l.pos + 1, calls := .skip :: l.calls } := by
  rw [advance, h]
  rfl

/-- The same lexer, but it shows something else at the end. -/
def ending (e : Int) (l : Lexer) : Lexer := { l with endUnit := e }

theorem calls_skip (n : Nat) (l : Lexer) :
    (l.skip n).calls = List.replicate n .skip ++ l.calls := by
  induction n generalizing l with
  | zero => rfl
  | succ n ih =>
      rw [skip, ih, List.replicate_succ', List.append_assoc]
      rfl

end Host.Lexer

/-- What is left of the text is the same for both, and they stand before it. -/
structure Paired (o : Opening) (c : Cursor) (l : Host.Lexer) : Prop extends Abreast o c l where
  upcoming : ∃ passed rest, o.after = passed ++ rest ∧ c.upcoming = some rest ∧
    l.rest = rest.map (fun ch => (ch.toNat : Int)) ∧
    c.pos = o.offset + Text.byteLength passed ∧ l.pos = passed.length

namespace Paired

variable {o : Opening} {c : Cursor} {l : Host.Lexer}

theorem of_opening (o : Opening) : Paired o o.cursor o.lexer := by
  have hcursor : o.cursor = ⟨o.offset, o.offset, none, some o.after⟩ :=
    Cursor.ofOffset_of_dropBytes? (Text.dropBytes?_eq_some_iff.2 ⟨o.before, rfl, rfl⟩)
  rw [hcursor]
  exact ⟨⟨o.counts_zero, o.counts_zero, .none⟩, [], o.after, rfl, rfl, rfl, rfl, rfl⟩

theorem advance {ch : Char} {rest : List Char} (h : Paired o c l)
    (hnext : c.upcoming = some (ch :: rest)) : Paired o (c.advance true) (l.advance true) := by
  obtain ⟨passed, rest', hafter, hupcoming, hrest, hpos, hpos'⟩ := h.upcoming
  obtain rfl := Option.some.inj (hupcoming.symm.trans hnext)
  have hafter' : o.after = (passed ++ [ch]) ++ rest := by
    rw [hafter, List.append_assoc]
    rfl
  have hplace : c.pos + ch.utf8Size = o.offset + Text.byteLength (passed ++ [ch]) := by
    rw [hpos, Text.byteLength_append, Nat.add_assoc]
    rfl
  have hplace' : l.pos + 1 = (passed ++ [ch]).length := by
    rw [hpos', List.length_append]
    rfl
  have hcounts : o.Counts (c.pos + ch.utf8Size) (l.pos + 1) := ⟨_, rest, hafter', hplace, hplace'⟩
  rw [Cursor.advance, hnext, Host.Lexer.advance_of_rest hrest]
  exact ⟨⟨hcounts, hcounts, h.marked⟩, _, rest, hafter', rfl, rfl, hplace, hplace'⟩

theorem skip {input : List Char} {n : Nat} (h : Paired o c l) (hupcoming : c.upcoming = some input)
    (hn : n ≤ input.length) : Paired o (c.skip n) (l.skip n) ∧ (l.skip n).pos = l.pos + n := by
  induction n generalizing c l input with
  | zero => exact ⟨h, rfl⟩
  | succ n ih =>
      cases input with
      | nil => exact absurd hn (Nat.not_succ_le_zero n)
      | cons ch rest =>
          have hnext : (c.advance true).upcoming = some rest := by
            rw [Cursor.advance, hupcoming]
          obtain ⟨hpaired, hpos⟩ := ih (h.advance hupcoming) hnext (Nat.le_of_succ_le_succ hn)
          obtain ⟨_, _, -, hrest', hrest, -⟩ := h.upcoming
          obtain rfl := Option.some.inj (hrest'.symm.trans hupcoming)
          rw [Host.Lexer.advance_of_rest hrest] at hpos
          refine ⟨hpaired, ?_⟩
          rw [Host.Lexer.skip, Host.Lexer.advance_of_rest hrest, hpos]
          exact Nat.succ_add_eq_add_succ _ _

theorem markEnd (h : Paired o c l) : Paired o c.markEnd l.markEnd :=
  ⟨⟨h.pos, h.start, .some h.pos⟩, h.upcoming⟩

/-- What is left for the host is no place. -/
theorem report (h : Paired o c l) (symbol : UInt16) :
    Paired o c { l with resultSymbol := symbol } :=
  ⟨⟨h.pos, h.start, h.marked⟩, h.upcoming⟩

/-! ### A call -/

theorem glyphs_eq (h : Paired o c l) : c.glyphs = l.glyphs := by
  obtain ⟨passed, rest, -, hupcoming, hrest, -⟩ := h.upcoming
  rw [Cursor.glyphs, Host.Lexer.glyphs, hupcoming, hrest, List.map_map]
  rfl

theorem outcome_eq (h : Paired o c l) (accept : MarkSet) (s : State) :
    c.outcome accept s = Offside.scan Glyph.ofCode accept s l.rest := by
  rw [Cursor.outcome_eq, h.glyphs_eq, Host.Lexer.glyphs, scan_map]

theorem scan (h : Paired o c l) (accept : MarkSet) (s : State) :
    (l.scan accept s).1 = (c.scan accept s).1.isSome ∧
      (l.scan accept s).2.1 = (c.scan accept s).2.1 ∧
      Paired o (c.scan accept s).2.2 (l.scan accept s).2.2 ∧
      l.Driven (c.scan accept s).1 (l.scan accept s).2.2 := by
  have heffect := effect_scan Glyph.ofCode accept s l.rest
  rw [Cursor.scan, Host.Lexer.scan, h.outcome_eq]
  generalize Offside.scan Glyph.ofCode accept s l.rest = answer at heffect ⊢
  obtain ⟨mark, t, consumed⟩ := answer
  cases heffect with
  | indent _ _ _ _ _ hstill =>
      obtain rfl : consumed = 0 := hstill.2
      exact ⟨rfl, rfl, h.report _, rfl⟩
  | dedent _ _ _ hstill =>
      obtain rfl : consumed = 0 := hstill.2
      exact ⟨rfl, rfl, h.report _, rfl⟩
  | newline _ _ _ hmoved =>
      obtain ⟨_, rest, -, hupcoming, hunits, -⟩ := h.upcoming
      -- Past the end the lexer would go on to record calls, but there is no break so long.
      have hle : consumed ≤ rest.length := by
        simpa [hunits] using hmoved.2.2
      obtain ⟨hpaired, hpos⟩ := h.skip hupcoming hle
      refine ⟨rfl, rfl, hpaired.markEnd.report _, rfl, consumed, hmoved.2.1, hpos, ?_⟩
      exact congrArg (.markEnd :: ·) (l.calls_skip consumed)
  | none _ _ hstill =>
      obtain rfl : consumed = 0 := hstill.2
      exact ⟨rfl, rfl, h, rfl⟩

end Paired

theorem Paired.agrees {o : Opening} {c : Cursor} {l : Host.Lexer} {r : Host.Registry}
    {handle : Nat} {s : State} (h : Paired o c l) (hlive : r.get? (some handle) = some s)
    (flags : List Bool) :
    Agrees handle o l (r.ask (some handle) (some l) (some flags)) (c.scan (.ofFlags flags) s) := by
  obtain ⟨hfound, hstate, hpaired, hdriven⟩ := h.scan (.ofFlags flags) s
  rw [Host.Registry.ask_of_get? hlive]
  refine ⟨hfound, ?_, _, rfl, hpaired.toAbreast, hdriven⟩
  rw [Host.Registry.get?_put hlive, hstate]

/-! ### A run of calls -/

/-- The host's state is the one that the scans of the text have left, and they stand at the same
place. -/
def Joint (handle : Nat) (o : Opening) (host : Host.Registry × Host.Lexer)
    (text : State × Cursor) : Prop :=
  host.1.get? (some handle) = some text.1 ∧ Paired o text.2 host.2

section Run

variable {handle : Nat} {o : Opening} {host : Host.Registry × Host.Lexer} {text : State × Cursor}

theorem Joint.act (h : Joint handle o host text) (a : Action) :
    Joint handle (a.opening o) (a.onHost handle host) (a.onText text) := by
  obtain ⟨hlive, hpaired⟩ := h
  cases a with
  | start o' => exact ⟨hlive, .of_opening o'⟩
  | scan flags =>
      obtain ⟨r, l⟩ := host
      obtain ⟨s, c⟩ := text
      obtain ⟨-, hstate, hpaired', -⟩ := hpaired.scan (.ofFlags flags) s
      rw [Action.onHost, Action.onText, Host.Registry.ask_of_get? hlive]
      refine ⟨?_, hpaired'⟩
      dsimp only
      rw [Host.Registry.get?_put hlive, hstate]

theorem Joint.run (h : Joint handle o host text) (actions : List Action) :
    Joint handle (actions.foldl Action.opening o) (actions.foldl (Action.onHost handle) host)
      (actions.foldl Action.onText text) := by
  induction actions generalizing o host text with
  | nil => exact h
  | cons a actions ih => exact ih (h.act a)

end Run

/-! ### What is shown at the end -/

namespace Host.Lexer

theorem skip_ending (e : Int) (n : Nat) (l : Lexer) :
    (l.ending e).skip n = (l.skip n).ending e := by
  induction n generalizing l with
  | zero => rfl
  | succ n ih => exact ih (l.advance true)

theorem behind_ending (e : Int) (m : Mark) (n : Nat) (l : Lexer) :
    (l.ending e).behind m n = (l.behind m n).ending e := by
  unfold behind
  rw [skip_ending]
  cases m with
  | newline => rfl
  | indent => rfl
  | dedent => rfl

theorem scan_ending (e : Int) (accept : MarkSet) (s : State) (l : Lexer) :
    (l.ending e).scan accept s =
      ((l.scan accept s).1, (l.scan accept s).2.1, (l.scan accept s).2.2.ending e) := by
  have hrest : (l.ending e).rest = l.rest := rfl
  rw [scan, scan, hrest]
  generalize Offside.scan Glyph.ofCode accept s l.rest = answer
  obtain ⟨mark, t, consumed⟩ := answer
  cases mark with
  | none => rfl
  | some m =>
      dsimp only
      rw [behind_ending]

end Host.Lexer

theorem Host.Registry.ask_ending (e : Int) (r : Registry) (handle : Option Nat) (l : Lexer)
    (flags : List Bool) :
    r.ask handle (some (l.ending e)) (some flags) =
      ((r.ask handle (some l) (some flags)).1, (r.ask handle (some l) (some flags)).2.1,
        (r.ask handle (some l) (some flags)).2.2.map (.ending e)) := by
  cases hstate : r.get? handle with
  | none => simp only [ask, scan, hstate, Option.map_some]
  | some s => simp only [ask, scan, hstate, Lexer.scan_ending, Option.map_some]

theorem Action.onHost_ending (e : Int) (handle : Nat) (host : Host.Registry × Host.Lexer)
    (a : Action) :
    (a.ending e).onHost handle (host.1, host.2.ending e) =
      ((a.onHost handle host).1, (a.onHost handle host).2.ending e) := by
  obtain ⟨r, l⟩ := host
  cases a with
  | start o => rfl
  | scan flags =>
      rw [ending, onHost, Host.Registry.ask_ending, onHost]
      dsimp only
      generalize r.ask (some handle) (some l) (some flags) = answer
      obtain ⟨found, r', l'⟩ := answer
      cases l' with
      | none => rfl
      | some l' => rfl

theorem Action.foldl_onHost_ending (e : Int) (handle : Nat) (host : Host.Registry × Host.Lexer)
    (actions : List Action) :
    (actions.map (ending e)).foldl (onHost handle) (host.1, host.2.ending e) =
      ((actions.foldl (onHost handle) host).1, (actions.foldl (onHost handle) host).2.ending e) := by
  induction actions generalizing host with
  | nil => rfl
  | cons a actions ih =>
      rw [List.map_cons, List.foldl_cons, onHost_ending, ih]
      rfl

/-- **A host's scanner agrees with a scan of the text.** Behind any calls and any texts opened, the
next call does to the host what the scan does to the cursor. What the host shows at the end of a
text changes no answer. -/
theorem host_agrees_with_text {r : Host.Registry} {handle : Nat} {s : State}
    (hlive : r.get? (some handle) = some s) (o : Opening) (actions : List Action)
    (flags : List Bool) :
    let accept := MarkSet.ofFlags flags
    let host := actions.foldl (Action.onHost handle) (r, o.lexer)
    let text := actions.foldl Action.onText (s, o.cursor)
    let answer := host.1.ask (some handle) (some host.2) (some flags)
    Agrees handle (actions.foldl Action.opening o) host.2 answer (text.2.scan accept text.1) ∧
      (∀ e : Int,
        let host' := (actions.map (Action.ending e)).foldl (Action.onHost handle)
          (r, (o.ending e).lexer)
        host'.1.ask (some handle) (some host'.2) (some flags) =
          (answer.1, answer.2.1, answer.2.2.map (.ending e))) ∧
      text.2.scan accept text.1 = Lookahead.scan accept text.1 text.2 ∧
      answer =
        (let (found, t, l) := Host.Lexer.report (Lookahead.scan accept text.1 host.2)
        (found, host.1.put (some handle) (some t), some l)) := by
  intro accept host text answer
  obtain ⟨hstate, hpaired⟩ : Joint handle (actions.foldl Action.opening o) host text :=
    Joint.run ⟨hlive, .of_opening o⟩ actions
  refine ⟨hpaired.agrees hstate flags, ?_, Cursor.scan_eq_lookahead accept text.1 text.2, ?_⟩
  · intro e host'
    have hending : host' = (host.1, host.2.ending e) :=
      Action.foldl_onHost_ending e handle (r, o.lexer) actions
    rw [hending]
    exact Host.Registry.ask_ending e host.1 (some handle) host.2 flags
  · rw [← Host.Lexer.scan_eq_lookahead]
    exact Host.Registry.ask_of_get? hstate host.2 flags

/-- A text behind a character of two bytes. The first call takes two lines and a tab, and the next one
gives an INDENT where the first one ended; the host shows a line break where the text ends. -/
theorem host_agrees_with_text_of_two_calls :
    let r : Host.Registry := ⟨#[some .fresh]⟩
    let flags := [true, true, true]
    let o : Opening := ⟨['é'], ['\n', '\r', '\t', '…'], 10⟩
    let host := [.scan flags].foldl (Action.onHost 0) (r, o.lexer)
    let text := [.scan flags].foldl Action.onText (.fresh, o.cursor)
    let answer := host.1.ask (some 0) (some host.2) (some flags)
    r.get? (some 0) = some .fresh ∧
      (host.2.pos, host.2.calls, text.2.pos) = (3, [.markEnd, .skip, .skip, .skip], 5) ∧
      answer.1 = true ∧ Agrees 0 o host.2 answer (text.2.scan (.ofFlags flags) text.1) := by
  intro r flags o host text answer
  have hlive : r.get? (some 0) = some .fresh := by decide
  exact ⟨hlive, by decide +kernel, by decide +kernel,
    (host_agrees_with_text hlive o [.scan flags] flags).1⟩

end Offside
