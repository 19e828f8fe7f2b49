/-!
What a document holds besides layout marks: characters that only separate, comments, and runs of
content. A piece is never empty and never longer than the text it is taken from.
-/

namespace Offside

/-- The characters that separate tokens and are dropped. -/
def isSeparator (c : Char) : Bool :=
  c = ' ' || c = '\t' || c = '\x0c' || c = '\r' || c = '\n'

def startsComment : List Char → Bool
  | '/' :: '/' :: _ => true
  | _ => false

def lineLength (text : List Char) : Nat := (text.takeWhile (· ≠ '\n')).length

/-- Counts on from `n` up to a separator, to a comment where those are dropped, or to the end. -/
def contentLength (skipComments : Bool) (n : Nat) : List Char → Nat
  | [] => n
  | c :: cs =>
    if isSeparator c || (skipComments && startsComment (c :: cs)) then n
    else contentLength skipComments (n + 1) cs

/-- The piece at the head of a text, with the number of its characters. -/
inductive Piece where
  | separator
  | comment (length : Nat)
  | content (length : Nat)
  deriving DecidableEq

namespace Piece

def length : Piece → Nat
  | separator => 1
  | comment n => n
  | content n => n

/-- The piece that starts with the character `c` and goes on in `cs`. Content takes its first
character whatever comes next. -/
def atHead (skipComments : Bool) (c : Char) (cs : List Char) : Piece :=
  if isSeparator c then .separator
  else if skipComments && startsComment (c :: cs) then .comment (lineLength (c :: cs))
  else .content (contentLength skipComments 1 cs)

end Piece

theorem contentLength_bounds (skipComments : Bool) (n : Nat) (text : List Char) :
    n ≤ contentLength skipComments n text ∧
      contentLength skipComments n text ≤ n + text.length := by
  induction text generalizing n with
  | nil => simp [contentLength]
  | cons c cs ih =>
    simp only [contentLength, List.length_cons]
    split
    · omega
    · have := ih (n + 1)
      omega

theorem lineLength_pos_of_startsComment {text : List Char} (h : startsComment text = true) :
    0 < lineLength text := by
  unfold startsComment at h
  split at h
  · simp [lineLength]
  · contradiction

theorem lineLength_le (text : List Char) : lineLength text ≤ text.length :=
  (List.takeWhile_sublist _).length_le

theorem Piece.length_atHead (skipComments : Bool) (c : Char) (cs : List Char) :
    0 < (atHead skipComments c cs).length ∧
      (atHead skipComments c cs).length ≤ (c :: cs).length := by
  unfold atHead
  split
  · simp [length]
  · split
    · rename_i h
      exact ⟨lineLength_pos_of_startsComment (Bool.and_eq_true_iff.1 h).2, lineLength_le _⟩
    · have := contentLength_bounds skipComments 1 cs
      simp only [length, List.length_cons]
      omega

end Offside
