import Offside.Host.Lexer
import Offside.Saved.Basic

/-!
The layout states of a host, which knows them by number. A number that stands for no state, or
none at all, makes every call do nothing, and so do flags, a lexer or a buffer that are missing.
-/

namespace Offside.Host

/-- The states that have been made; one that has been given back is gone. -/
structure Registry where
  states : Array (Option State)

namespace Registry

def empty : Registry := ⟨#[]⟩

def get? (r : Registry) (handle : Option Nat) : Option State :=
  handle.bind fun n => r.states[n]?.join

/-- Puts a state, or none, in the place of a number. -/
def put (r : Registry) (handle : Option Nat) (s : Option State) : Registry :=
  match handle with
  | some n => ⟨r.states.setIfInBounds n s⟩
  | none => r

def create (r : Registry) : Nat × Registry := (r.states.size, ⟨r.states.push (some .fresh)⟩)

def destroy (r : Registry) (handle : Option Nat) : Registry := r.put handle none

/-- Whether there is a mark, and the states and the lexer behind it. -/
def scan (r : Registry) (handle : Option Nat) (lexer : Option Lexer) (accept : Option MarkSet) :
    Bool × Registry × Option Lexer :=
  match r.get? handle, lexer, accept with
  | some s, some l, some accept =>
    let (found, state, l) := l.scan accept s
    (found, r.put handle (some state), some l)
  | _, _, _ => (false, r, lexer)

/-- Asks for a mark, as a host does it: with one flag for each mark, in symbol order. -/
def ask (r : Registry) (handle : Option Nat) (lexer : Option Lexer) (flags : Option (List Bool)) :
    Bool × Registry × Option Lexer :=
  r.scan handle lexer (flags.map MarkSet.ofFlags)

/-- Saves a state into a buffer: the number of bytes written, and the buffer. -/
def serialize (r : Registry) (handle : Option Nat) (buffer : Option (List UInt8)) :
    Nat × Option (List UInt8) :=
  match r.get? handle, buffer with
  | some s, some bytes =>
    let (written, bytes) := s.saveInto bytes
    (written, some bytes)
  | _, _ => (0, buffer)

/-- Recovers a state from the first bytes of a buffer; a missing buffer counts as empty. -/
def deserialize (r : Registry) (handle : Option Nat) (buffer : Option (List UInt8))
    (length : Nat) : Registry :=
  match r.get? handle with
  | some _ => r.put handle (some (.recover ((buffer.getD []).take length)))
  | none => r

variable {r : Registry} {handle : Nat} {s t : State}

theorem get?_put (h : r.get? (some handle) = some s) :
    (r.put (some handle) (some t)).get? (some handle) = some t := by
  have hsize : handle < r.states.size := by
    by_cases hsize : handle < r.states.size
    · exact hsize
    · simp [get?, Array.getElem?_eq_none (Nat.not_lt.1 hsize)] at h
  simp [get?, put, hsize]

theorem get?_create (r : Registry) : r.create.2.get? (some r.create.1) = some .fresh := by
  simp [get?, create]

theorem ask_of_get? (h : r.get? (some handle) = some s) (l : Lexer) (flags : List Bool) :
    r.ask (some handle) (some l) (some flags) =
      ((l.scan (.ofFlags flags) s).1, r.put (some handle) (some (l.scan (.ofFlags flags) s).2.1),
        some (l.scan (.ofFlags flags) s).2.2) := by
  simp only [ask, scan, h, Option.map_some]

theorem serialize_of_get? (h : r.get? (some handle) = some s) (buffer : List UInt8) :
    r.serialize (some handle) (some buffer) =
      ((s.saveInto buffer).1, some (s.saveInto buffer).2) := by
  simp only [serialize, h]

theorem deserialize_of_get? (h : r.get? (some handle) = some s) (bytes : List UInt8) :
    r.deserialize (some handle) (some bytes) bytes.length =
      r.put (some handle) (some (.recover bytes)) := by
  rw [deserialize, h, Option.getD_some, List.take_length]

end Registry

end Offside.Host
