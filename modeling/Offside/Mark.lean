/-! Layout marks, and the sets of marks that a parser accepts at one place. -/

namespace Offside

/-- What the layout of a text contributes to its token stream. -/
inductive Mark where
  | newline
  | indent
  | dedent
  deriving DecidableEq

namespace Mark

def all : List Mark := [.newline, .indent, .dedent]

/-- The number a parser knows the mark by. -/
def symbol : Mark → UInt16
  | newline => 0
  | indent => 1
  | dedent => 2

def ofSymbol? (n : UInt16) : Option Mark := all.find? (·.symbol = n)

def name : Mark → String
  | newline => "NEWLINE"
  | indent => "INDENT"
  | dedent => "DEDENT"

theorem mem_all (m : Mark) : m ∈ all := by cases m <;> decide

@[simp] theorem ofSymbol?_symbol (m : Mark) : ofSymbol? m.symbol = some m := by
  cases m <;> rfl

end Mark

/-- The marks that a parser accepts at one place: one switch for each. -/
structure MarkSet where
  newline : Bool
  indent : Bool
  dedent : Bool
  deriving DecidableEq

namespace MarkSet

def empty : MarkSet := ⟨false, false, false⟩

def full : MarkSet := ⟨true, true, true⟩

/-- Reads one flag for each symbol in order; a flag that is missing is off, and one too many is
not looked at. -/
def ofFlags (flags : List Bool) : MarkSet :=
  ⟨flags.getD 0 false, flags.getD 1 false, flags.getD 2 false⟩

def contains (s : MarkSet) : Mark → Bool
  | .newline => s.newline
  | .indent => s.indent
  | .dedent => s.dedent

def set (s : MarkSet) (on : Bool) : Mark → MarkSet
  | .newline => { s with newline := on }
  | .indent => { s with indent := on }
  | .dedent => { s with dedent := on }

def insert (s : MarkSet) (m : Mark) : MarkSet := s.set true m

def erase (s : MarkSet) (m : Mark) : MarkSet := s.set false m

def ofList (ms : List Mark) : MarkSet := ms.foldl insert empty

/-- The accepted marks in symbol order. -/
def toList (s : MarkSet) : List Mark := Mark.all.filter s.contains

def isEmpty (s : MarkSet) : Bool := !(s.newline || s.indent || s.dedent)

/-- The accepted names between braces. -/
def text (s : MarkSet) : String :=
  "\x7b" ++ ", ".intercalate (s.toList.map Mark.name) ++ "\x7d"

theorem contains_insert (s : MarkSet) (m n : Mark) :
    (s.insert m).contains n = (decide (m = n) || s.contains n) := by
  cases m <;> cases n <;> rfl

theorem contains_erase (s : MarkSet) (m n : Mark) :
    (s.erase m).contains n = (!decide (m = n) && s.contains n) := by
  cases m <;> cases n <;> rfl

theorem mem_toList {s : MarkSet} {m : Mark} : m ∈ s.toList ↔ s.contains m = true := by
  simp [toList, Mark.mem_all]

theorem toList_eq_nil_iff (s : MarkSet) : s.toList = [] ↔ s.isEmpty = true := by
  obtain ⟨n, i, d⟩ := s
  revert n i d
  decide

end MarkSet

end Offside
