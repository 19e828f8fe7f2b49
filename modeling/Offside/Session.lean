import Offside.Piece
import Offside.Saved.Basic
import Offside.Scan
import Offside.Text.Place
import Offside.Token.Basic

/-!
A document as a sequence of tokens. A session stands at a place with a layout state. At each step
it asks the scanner for a mark, and where there is none it takes a piece of the text. Every step
uses up weight, so a session comes to its end.
-/

namespace Offside

structure Config where
  accept : MarkSet := .full
  /-- Whether the state is saved and recovered before every scan. -/
  checkpoint : Bool := false
  /-- The bytes set aside for a saved state; no number of them is too large to be had. -/
  capacity : Nat := Saved.bufferSize
  /-- Whether comments are dropped; otherwise they are content. -/
  skipComments : Bool := true
  deriving DecidableEq

/-- Reading a document, part of the way through. -/
structure Session where
  config : Config
  place : Place
  state : State
  deriving DecidableEq

inductive ResumeError where
  | offsetOutOfRange (offset length : Nat)
  | notCharBoundary (offset : Nat)
  deriving DecidableEq

def ResumeError.message : ResumeError → String
  | offsetOutOfRange offset length =>
    "offset " ++ toString offset ++ " is past the end of the source (" ++ toString length ++
      " bytes)"
  | notCharBoundary offset => "offset " ++ toString offset ++ " is not on a character boundary"

namespace Session

def start (text : List Char) (config : Config) : Session := ⟨config, ⟨0, text⟩, .fresh⟩

/-- At an offset of a document, with the state that some bytes hold. -/
def resume (text : List Char) (offset : Nat) (saved : List UInt8) (config : Config) :
    Except ResumeError Session :=
  if Text.byteLength text < offset then
    .error (.offsetOutOfRange offset (Text.byteLength text))
  else
    match Place.at? text offset with
    | some place => .ok ⟨config, place, .recover saved⟩
    | none => .error (.notCharBoundary offset)

def snapshot (s : Session) : List UInt8 := s.state.save s.config.capacity

/-- The state that the next scan sees. -/
def held (s : Session) : State := if s.config.checkpoint then .recover s.snapshot else s.state

/-- What one step gives: a token, the dropping of a piece, or the end; and the session behind it. -/
inductive Step where
  | token (t : Token) (s : Session)
  | dropped (s : Session)
  | finished (s : Session)

def skip (s : Session) (n : Nat) : Session := { s with place := s.place.skip n }

/-- The session behind a mark, which has no width and stands where the session now is. -/
def markStep (m : Mark) (s : Session) : Step :=
  .token ⟨.mark m, ⟨s.place.offset, s.place.offset⟩, s.state.levels.toList⟩ s

/-- The session behind a run of content that starts at the given offset. -/
def contentStep (start : Nat) (s : Session) : Step :=
  .token ⟨.content, ⟨start, s.place.offset⟩, s.state.levels.toList⟩ s

def takePiece (s : Session) : Step :=
  match s.place.rest with
  | [] => .finished s
  | c :: cs =>
    match Piece.atHead s.config.skipComments c cs with
    | .content n => contentStep s.place.offset (s.skip n)
    | piece => .dropped (s.skip piece.length)

/-- One scan, and one piece where the scan gives no mark. -/
def step (s : Session) : Step :=
  match scan Glyph.ofChar s.config.accept s.held s.place.rest with
  | ⟨some m, state, consumed⟩ => markStep m ⟨s.config, s.place.skip consumed, state⟩
  | ⟨none, state, _⟩ => takePiece ⟨s.config, s.place, state⟩

def weight (s : Session) : Nat := 3 * s.place.rest.length + s.state.weight

def Step.next : Step → Session
  | token _ s => s
  | dropped s => s
  | finished s => s

theorem weight_held_le (s : Session) : s.held.weight ≤ s.state.weight := by
  unfold held
  split
  · exact State.weight_recover_save_le _ _
  · exact Nat.le_refl _

theorem weight_skip_lt {s : Session} {n : Nat} (hpos : 0 < n)
    (hle : n ≤ s.place.rest.length) : (s.skip n).weight < s.weight := by
  simp only [skip, weight, Place.rest_skip, List.length_drop]
  omega

theorem weight_takePiece (s : Session) :
    s.takePiece = .finished s ∨ s.takePiece.next.weight < s.weight := by
  unfold takePiece
  split
  · exact .inl rfl
  · rename_i c cs hrest
    have hpiece := Piece.length_atHead s.config.skipComments c cs
    rw [← hrest] at hpiece
    refine .inr ?_
    split
    · rename_i n hn
      rw [hn] at hpiece
      exact weight_skip_lt hpiece.1 hpiece.2
    · exact weight_skip_lt hpiece.1 hpiece.2

theorem weight_step (s : Session) :
    (∃ t, s.step = .finished t) ∨ s.step.next.weight < s.weight := by
  have hheld := s.weight_held_le
  unfold step
  split
  · rename_i m state consumed h
    have := weight_lt_of_scan h
    refine .inr ?_
    simp only [markStep, Step.next, weight, Place.rest_skip, List.length_drop]
    omega
  · rename_i state consumed h
    have := weight_le_of_scan h
    rcases weight_takePiece ⟨s.config, s.place, state⟩ with h | h
    · exact .inl ⟨_, h⟩
    · refine .inr (Nat.lt_of_lt_of_le h ?_)
      simp only [weight]
      omega

theorem weight_lt_of_token {s t : Session} {token : Token} (h : s.step = .token token t) :
    t.weight < s.weight := by
  rcases s.weight_step with ⟨u, hu⟩ | hlt
  · simp [hu] at h
  · simpa [h, Step.next] using hlt

theorem weight_lt_of_dropped {s t : Session} (h : s.step = .dropped t) :
    t.weight < s.weight := by
  rcases s.weight_step with ⟨u, hu⟩ | hlt
  · simp [hu] at h
  · simpa [h, Step.next] using hlt

/-- The next token, if one is left, and the session behind it. -/
def next (s : Session) : Option Token × Session :=
  match _h : s.step with
  | .token t u => (some t, u)
  | .dropped u => u.next
  | .finished u => (none, u)
termination_by s.weight
decreasing_by exact weight_lt_of_dropped ‹_›

/-- All the tokens that are left, behind those already read, which are held in reverse. -/
def drainOnto (read : List Token) (s : Session) : List Token × Session :=
  match _h : s.step with
  | .token t u => drainOnto (t :: read) u
  | .dropped u => drainOnto read u
  | .finished u => (read.reverse, u)
termination_by s.weight
decreasing_by
  · exact weight_lt_of_token ‹_›
  · exact weight_lt_of_dropped ‹_›

def drain (s : Session) : List Token × Session := drainOnto [] s

end Session

def lex (config : Config) (text : List Char) : List Token := (Session.start text config).drain.1

end Offside
