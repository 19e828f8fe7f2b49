import Offside.Levels
import Offside.Text.Place
import Offside.Text.Quoted
import Offside.Token.Basic

/-!
Tokens as lines of text. A line holds the kind in seven columns, the two offsets, and then the
open levels of a mark or the quoted text of a run of content.
-/

namespace Offside

namespace Token

/-- A name, filled up with spaces to the given number of columns. -/
def padRight (columns : Nat) (name : List Char) : List Char :=
  name ++ List.replicate (columns - name.length) ' '

/-- What a line says last, for the text that the span cuts out of the document, if it does. -/
def detail (cut : Option (List Char)) (t : Token) : List Char :=
  if t.kind.isMark then (widthsText t.levels).toList else Text.quoted '"' (cut.getD [])

/-- The line of one token, for the text that its span cuts out of the document, if it does. -/
def line (cut : Option (List Char)) (t : Token) : List Char :=
  padRight 7 t.kind.name.toList ++ ' ' :: (toString t.span.start).toList ++ ['.', '.'] ++
    (toString t.span.stop).toList ++ ' ' :: t.detail cut ++ ['\n']

/-- The line of one token of the given document. -/
def lineIn (text : List Char) (t : Token) : List Char :=
  t.line (Text.slice? t.span.start t.span.stop text)

end Token

/-- The lines of some tokens of the given document, in reverse and before the lines given. Each
token is sought from the place where the last one was found. -/
def linesOnto (text : List Char) (p : Place) (lines : List (List Char)) :
    List Token → List (List Char)
  | [] => lines
  | t :: tokens =>
    match p.seek? text t.span.start with
    | some q => linesOnto text q (t.line (q.upTo? t.span.stop) :: lines) tokens
    | none => linesOnto text p (t.line none :: lines) tokens

def render (text : List Char) (tokens : List Token) : List Char :=
  (linesOnto text ⟨0, text⟩ [] tokens).reverse.flatten

theorem linesOnto_eq {text : List Char} {p : Place} (h : Place.at? text p.offset = some p)
    (lines : List (List Char)) (tokens : List Token) :
    linesOnto text p lines tokens = (tokens.map (Token.lineIn text)).reverse ++ lines := by
  induction tokens generalizing p lines with
  | nil => rfl
  | cons t tokens ih =>
    rw [linesOnto, Place.seek?_eq_at? h, List.map_cons, List.reverse_cons, List.append_assoc,
      List.singleton_append, Token.lineIn, ← Place.at?_bind_upTo?]
    cases hq : Place.at? text t.span.start with
    | none => exact ih h _
    | some q => exact ih ((Place.at?_eq_some_iff.1 hq).1 ▸ hq) _

theorem render_eq_flatMap (text : List Char) (tokens : List Token) :
    render text tokens = tokens.flatMap (Token.lineIn text) := by
  have h : Place.at? text 0 = some ⟨0, text⟩ := by simp [Place.at?, Text.dropBytes?]
  rw [render, linesOnto_eq h, List.append_nil, List.reverse_reverse, List.flatMap_def]

end Offside
