import Offside.Scan
import Offside.Text.Place

/-!
A cursor over a text, as a lexer keeps it: it moves one character at a time, and the token it is
about to give starts where the last skipped character ended. A cursor may be put at any offset;
inside a character it sees nothing and cannot move.
-/

namespace Offside

/-- A place in a text and the ends of the token that is being read. -/
structure Cursor where
  pos : Nat
  start : Nat
  /-- Where the token was said to end. -/
  marked : Option Nat
  /-- The text from here on; nothing inside a character. -/
  upcoming : Option (List Char)
  deriving DecidableEq

namespace Cursor

/-- At an offset of a text; one past the end counts as the end. -/
def ofOffset (text : List Char) (offset : Nat) : Cursor :=
  let pos := min offset (Text.byteLength text)
  ⟨pos, pos, none, Text.dropBytes? pos text⟩

theorem ofOffset_of_dropBytes? {text rest : List Char} {offset : Nat}
    (h : Text.dropBytes? offset text = some rest) :
    ofOffset text offset = ⟨offset, offset, none, some rest⟩ := by
  obtain ⟨before, rfl, rfl⟩ := Text.dropBytes?_eq_some_iff.1 h
  have hpos : min (Text.byteLength before) (Text.byteLength (before ++ rest)) =
      Text.byteLength before := by
    rw [Text.byteLength_append]
    exact Nat.min_eq_left (Nat.le_add_right _ _)
  rw [ofOffset, hpos, h]

def lookahead (c : Cursor) : Option Char := c.upcoming.bind List.head?

def atEnd (c : Cursor) : Bool := c.upcoming == some []

/-- Where the token ends: where that was said, or else here. -/
def stop (c : Cursor) : Nat := c.marked.getD c.pos

/-- Moves over the next character, which then stands before the token if it is to be skipped. -/
def advance (skip : Bool) (c : Cursor) : Cursor :=
  match c.upcoming with
  | some (ch :: rest) =>
    let pos := c.pos + ch.utf8Size
    ⟨pos, if skip then pos else c.start, c.marked, some rest⟩
  | _ => c

def markEnd (c : Cursor) : Cursor := { c with marked := some c.pos }

def skip : Nat → Cursor → Cursor
  | 0, c => c
  | n + 1, c => skip n (c.advance true)

/-- The outcome of a scan, whatever the cursor stands at. -/
def outcome (accept : MarkSet) (s : State) (c : Cursor) : Outcome :=
  match c.upcoming with
  | some rest => Offside.scan Glyph.ofChar accept s rest
  | none => Offside.scan id accept s [Glyph.other]

/-- The cursor behind an outcome. A line break is skipped and the end of its mark is said. -/
def behind (o : Outcome) (c : Cursor) : Cursor :=
  match o.mark with
  | some .newline => (c.skip o.consumed).markEnd
  | _ => c.skip o.consumed

def scan (accept : MarkSet) (s : State) (c : Cursor) : Option Mark × State × Cursor :=
  let o := c.outcome accept s
  (o.mark, o.state, c.behind o)

end Cursor

end Offside
