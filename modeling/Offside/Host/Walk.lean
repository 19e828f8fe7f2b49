import Offside.Scan
import Offside.Text.Place

/-!
The plainest host: it asks for a mark at every character of a text, moves on by one character where
there is none, and stops where there is none at the end. What it accepts may change from one call
to the next.
-/

namespace Offside.Host

/-- What a call of the plain host came to: a mark, or none at the end. -/
structure Visit where
  call : Nat
  mark : Option Mark
  offset : Nat
  state : State
  deriving DecidableEq

/-- Walks on from a place; `seen` holds what came before, in reverse. -/
def walkFrom (accepts : Nat → MarkSet) (seen : List Visit) (call : Nat) (s : State) (p : Place) :
    List Visit :=
  match _h : scan Glyph.ofChar (accepts call) s p.rest with
  | ⟨some m, state, consumed⟩ =>
    let place := p.skip consumed
    walkFrom accepts (⟨call, some m, place.offset, state⟩ :: seen) (call + 1) state place
  | ⟨none, state, _⟩ =>
    match _hrest : p.rest with
    | [] => (⟨call, none, p.offset, state⟩ :: seen).reverse
    | _ :: _ => walkFrom accepts seen (call + 1) state (p.skip 1)
termination_by 3 * p.rest.length + s.weight
decreasing_by
  · have := weight_lt_of_scan _h
    simp only [Place.rest_skip, List.length_drop]
    omega
  · have := weight_le_of_scan _h
    simp only [Place.rest_skip, List.length_drop, _hrest, List.length_cons]
    omega

def walk (accepts : Nat → MarkSet) (s : State) (text : List Char) : List Visit :=
  walkFrom accepts [] 0 s ⟨0, text⟩

end Offside.Host
