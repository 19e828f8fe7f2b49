import Offside.Token.Basic

/-! Tokens as JSON text, with one member or item to a line and two spaces for each depth. -/

namespace Offside

namespace Json

def spaces (n : Nat) : String := String.ofList (List.replicate n ' ')

/-- Items between brackets, each on a line of its own; no items leave the brackets alone. The
closing bracket stands in the given column. -/
def block (column : Nat) (left right : String) (items : List String) : String :=
  if items.isEmpty then left ++ right
  else
    left ++ "\n" ++ ",\n".intercalate (items.map (spaces (column + 2) ++ ·)) ++ "\n" ++
      spaces column ++ right

def array (column : Nat) (items : List String) : String := block column "[" "]" items

def object (column : Nat) (members : List String) : String := block column "\x7b" "\x7d" members

/-- A member of an object. The name needs no escapes. -/
def member (name value : String) : String := "\"" ++ name ++ "\": " ++ value

end Json

open Json

/-- A token as an object that ends in the given column. -/
def Token.json (column : Nat) (t : Token) : String :=
  object column
    [ member "kind" ("\"" ++ t.kind.name ++ "\""),
      member "span" (object (column + 2)
        [ member "start" (toString t.span.start), member "end" (toString t.span.stop) ]),
      member "levels" (array (column + 2) (t.levels.map toString)) ]

def tokensJson (tokens : List Token) : String := array 0 (tokens.map (Token.json 2))

end Offside
