import Offside.Mark

/-! The tokens of a document: layout marks and runs of content, each with its place in the text. -/

namespace Offside

/-- A stretch of a text by its byte offsets. -/
structure Span where
  start : Nat
  stop : Nat
  deriving DecidableEq

namespace Span

/-- The number of bytes covered; none where the ends are out of order. -/
def length (s : Span) : Nat := s.stop - s.start

def isEmpty (s : Span) : Bool := s.length == 0

end Span

inductive Token.Kind where
  | mark (m : Mark)
  | content
  deriving DecidableEq

namespace Token.Kind

def name : Kind → String
  | mark m => m.name
  | content => "CONTENT"

def isMark : Kind → Bool
  | mark _ => true
  | content => false

end Token.Kind

/-- A token, with the levels that are open right behind it. -/
structure Token where
  kind : Token.Kind
  span : Span
  levels : List UInt16
  deriving DecidableEq

end Offside
