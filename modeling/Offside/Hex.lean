import Offside.Text.Blank
import Offside.Text.Quoted

/-!
Bytes as hexadecimal digits, two for each byte. Writing uses lower-case digits alone; reading also
takes upper-case ones, a leading `0x`, and blanks and underscores between the digits.
-/

namespace Offside.Hex

inductive Error where
  | oddLength (digits : Nat)
  | invalidDigit (index : Nat) (found : Char)
  deriving DecidableEq

def Error.message : Error → String
  | oddLength digits => "hex input has an odd number of digits (" ++ toString digits ++ ")"
  | invalidDigit index found =>
    "invalid hex digit " ++ String.ofList (Text.quoted '\'' [found]) ++ " at position " ++
      toString index

/-- The digit of a number below sixteen. -/
def digit (n : Nat) : Char := Nat.digitChar n

/-- The number that a digit of either case stands for. -/
def value? (c : Char) : Option Nat :=
  if '0' ≤ c && c ≤ '9' then some (c.toNat - '0'.toNat)
  else if 'a' ≤ c && c ≤ 'f' then some (c.toNat - 'a'.toNat + 10)
  else if 'A' ≤ c && c ≤ 'F' then some (c.toNat - 'A'.toNat + 10)
  else none

/-- The two digits of a byte, the high half first. -/
def byteDigits (b : UInt8) : List Char := [digit (b.toNat / 16), digit (b.toNat % 16)]

def encode (bytes : List UInt8) : List Char := bytes.flatMap byteDigits

/-- The digits of a text: what is left without the blanks around it, one leading `0x`, and every
blank and underscore behind that. -/
def digits (text : List Char) : List Char :=
  let text := Text.trimBlanks text
  let text := match text with
    | '0' :: 'x' :: rest => rest
    | _ => text
  text.filter fun c => !Text.isBlank c && c != '_'

/-- Reads pairs of digits, the first of which has the given index. -/
def decodeDigits (index : Nat) : List Char → Except Error (List UInt8)
  | high :: low :: rest =>
    match value? high, value? low with
    | some h, some l => (decodeDigits (index + 2) rest).map (.ofNat (16 * h + l) :: ·)
    | none, _ => .error (.invalidDigit index high)
    | some _, none => .error (.invalidDigit (index + 1) low)
  | _ => .ok []

/-- The bytes that a text stands for. The number of the digits is looked at first, and then each
digit in turn. -/
def decode (text : List Char) : Except Error (List UInt8) :=
  let ds := digits text
  if ds.length % 2 = 1 then .error (.oddLength ds.length) else decodeDigits 0 ds

end Offside.Hex
