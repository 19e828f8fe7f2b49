/-! The words of a command line by their shape, and the numbers that they can stand for. -/

namespace Offside.Command

/-- A word by its shape alone. -/
inductive Word where
  /-- Two hyphens alone: all that follows is plain. -/
  | escape
  /-- Two hyphens, a name, and perhaps a value behind an equals sign. -/
  | long (name : String) (value : Option String)
  /-- One hyphen and letters, of which the first is given. -/
  | short (letter : Char)
  /-- Any other word, a hyphen alone among them. -/
  | plain
  deriving DecidableEq

def Word.ofText (text : String) : Word :=
  match text.toList with
  | ['-', '-'] => .escape
  | '-' :: '-' :: rest =>
    let name := String.ofList (rest.takeWhile (· ≠ '='))
    match rest.dropWhile (· ≠ '=') with
    | [] => .long name none
    | _ :: value => .long name (some (String.ofList value))
  | '-' :: letter :: _ => .short letter
  | _ => .plain

/-- The number that decimal digits stand for; there has to be one. -/
def digitsValue? (digits : List Char) : Option Nat :=
  if digits.isEmpty || !digits.all Char.isDigit then none
  else some (digits.foldl (fun n c => 10 * n + (c.toNat - '0'.toNat)) 0)

/-- A number of bytes: digits, perhaps behind a plus sign, below two to the sixty-fourth. -/
def size? (text : String) : Option Nat :=
  let digits := match text.toList with
    | '+' :: rest => rest
    | rest => rest
  (digitsValue? digits).filter (· < UInt64.size)

/-- A width: digits, perhaps behind a sign, from zero to the greatest width. -/
def width? (text : String) : Option UInt16 :=
  match text.toList with
  | '-' :: rest => ((digitsValue? rest).filter (· = 0)).map .ofNat
  | '+' :: rest => ((digitsValue? rest).filter (· < 65536)).map .ofNat
  | rest => ((digitsValue? rest).filter (· < 65536)).map .ofNat

end Offside.Command
