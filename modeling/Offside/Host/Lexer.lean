import Offside.Scan

/-!
A lexer that belongs to a host. Its input is a sequence of numbers, each a code point or nothing
at all, and it is driven by calls that it records.
-/

namespace Offside.Host

inductive Call where
  | skip
  | keep
  | markEnd
  | column
  deriving DecidableEq

structure Lexer where
  rest : List Int
  pos : Nat
  start : Nat
  /-- Where the token was said to end. -/
  markedEnd : Option Nat
  /-- The number of the mark that was found last. -/
  resultSymbol : UInt16
  /-- What the lexer shows where nothing is left. -/
  endUnit : Int
  calls : List Call
  deriving DecidableEq

def Call.letter : Call → Char
  | skip => 's'
  | keep => 'a'
  | markEnd => 'm'
  | column => 'c'

namespace Lexer

/-- A lexer before its first unit; no mark has the number it starts with. -/
def ofUnits (units : List Int) (endUnit : Int) : Lexer :=
  ⟨units, 0, 0, none, 65535, endUnit, []⟩

def lookahead (l : Lexer) : Int := l.rest.headD l.endUnit

/-- Moves over the next unit, if there is one. A skipped unit stands before the token. -/
def advance (skip : Bool) (l : Lexer) : Lexer :=
  let pos := if l.rest.isEmpty then l.pos else l.pos + 1
  { l with
    rest := l.rest.tail
    pos
    start := if skip then pos else l.start
    calls := (if skip then .skip else .keep) :: l.calls }

def skip : Nat → Lexer → Lexer
  | 0, l => l
  | n + 1, l => skip n (l.advance true)

def markEnd (l : Lexer) : Lexer :=
  { l with markedEnd := some l.pos, calls := .markEnd :: l.calls }

/-- The lexer behind a mark. A line break is skipped unit by unit, and the end of its mark is
said; the number of the mark is left for the host. -/
def behind (m : Mark) (consumed : Nat) (l : Lexer) : Lexer :=
  match m with
  | .newline => { (l.skip consumed).markEnd with resultSymbol := m.symbol }
  | _ => { l.skip consumed with resultSymbol := m.symbol }

/-- One call of the scanner: whether it found a mark, the state it leaves, and the lexer. -/
def scan (accept : MarkSet) (s : State) (l : Lexer) : Bool × State × Lexer :=
  match Offside.scan Glyph.ofCode accept s l.rest with
  | ⟨none, state, _⟩ => (false, state, l)
  | ⟨some m, state, consumed⟩ => (true, state, l.behind m consumed)

end Lexer

end Offside.Host
