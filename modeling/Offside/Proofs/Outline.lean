import Offside.Piece
import Offside.Proofs.BreakGrammar
import Offside.Text.Place
import Offside.Token.Basic

/-! The tokens of a document, line by line. A line break is taken whole and settles the levels at
once, so nothing is left pending and no marks are asked for. -/

namespace Offside

namespace Outline

/-- A mark without width. The levels are given from the innermost outwards, the base included. -/
def markAt (q : Nat) (m : Mark) (levels : List UInt16) : Token :=
  ⟨.mark m, ⟨q, q⟩, levels.reverse⟩

/-- A DEDENT for each level that is closed, the innermost first; the others stay open. -/
def dedents (q : Nat) : List UInt16 → List UInt16 → List Token
  | [], _ => []
  | _ :: closed, kept => markAt q .dedent (closed ++ kept) :: dedents q closed kept

/-- A line that is wider than the innermost level opens a level, and any other closes those that are
wider than the line. -/
def levelsAt (width : UInt16) (levels : List UInt16) : List UInt16 :=
  if levels.headD 0 < width then width :: levels else levels.dropWhile (width < ·)

/-- The marks that a line gives for the levels that it opens or closes. -/
def marksAt (q : Nat) (width : UInt16) (levels : List UInt16) : List Token :=
  if levels.headD 0 < width then [markAt q .indent (width :: levels)]
  else dedents q (levels.takeWhile (width < ·)) (levels.dropWhile (width < ·))

/-- The columns of a line that starts with so many spaces and then so many tabs. -/
def columns (spaces tabs : Nat) : UInt16 := .ofNat (min 65535 (spaces + 4 * tabs))

/-- The first part of a text goes up to the first place where it is to stop. -/
def UpTo (stop : List Char → Prop) (taken rest : List Char) : Prop :=
  stop rest ∧ ∀ front back, taken = front ++ back → back ≠ [] → ¬ stop (back ++ rest)

/-- A comment stops before a line feed, and at the end. -/
def EndsLine (text : List Char) : Prop := text = [] ∨ ∃ rest, text = '\n' :: rest

/-- Content stops before a separator, before a comment where those are dropped, and at the end. -/
def EndsContent (skipComments : Bool) (text : List Char) : Prop :=
  text = [] ∨ (∃ c rest, text = c :: rest ∧ isSeparator c = true) ∨
    skipComments = true ∧ ∃ rest, text = '/' :: '/' :: rest

end Outline

open Outline

/-- The tokens of a text that goes on at the given offset, with the given levels open from the
innermost outwards. -/
inductive Outline (skipComments : Bool) : Nat → List Char → List UInt16 → List Token → Prop where
  /-- At the end all levels above the base are closed. -/
  | finish (q : Nat) (opened : List UInt16) :
      Outline skipComments q [] (opened ++ [0]) (dedents q opened [0])
  | lineBreak {q spaces tabs : Nat} {taken rest : List Char} {levels : List UInt16}
      {tokens : List Token} (hbreak : LongestBreak taken rest spaces tabs)
      (hnext : Outline skipComments (q + Text.byteLength taken) rest
        (levelsAt (columns spaces tabs) levels) tokens) :
      Outline skipComments q (taken ++ rest) levels
        (markAt (q + Text.byteLength taken) .newline levels ::
          (marksAt (q + Text.byteLength taken) (columns spaces tabs) levels ++ tokens))
  | separator {q : Nat} {c : Char} {rest : List Char} {levels : List UInt16} {tokens : List Token}
      (hseparator : isSeparator c = true) (hlineFeed : c ≠ '\n')
      (hnext : Outline skipComments (q + c.utf8Size) rest levels tokens) :
      Outline skipComments q (c :: rest) levels tokens
  | comment {q : Nat} {taken rest : List Char} {levels : List UInt16} {tokens : List Token}
      (hskip : skipComments = true) (hstart : ∃ text, taken ++ rest = '/' :: '/' :: text)
      (htaken : UpTo EndsLine taken rest)
      (hnext : Outline skipComments (q + Text.byteLength taken) rest levels tokens) :
      Outline skipComments q (taken ++ rest) levels tokens
  | content {q : Nat} {taken rest : List Char} {levels : List UInt16} {tokens : List Token}
      (hne : taken ≠ []) (htaken : UpTo (EndsContent skipComments) taken rest)
      (hnext : Outline skipComments (q + Text.byteLength taken) rest levels tokens) :
      Outline skipComments q (taken ++ rest) levels
        (⟨.content, ⟨q, q + Text.byteLength taken⟩, levels.reverse⟩ :: tokens)

end Offside
