import Offside.Command.Usage
import Offside.Command.Word

/-!
What a command takes: flags, options with one value each, and operands. Words are read from left
to right, and what a word begins is settled only when the next option or operand begins or the line
ends. So of two faults the one that is settled first is found, except that a word which fits
nowhere is a fault at once.
-/

namespace Offside.Command

/-- What a command takes, and how each part changes what has been given so far. -/
structure Grammar (σ : Type) where
  flag? : String → Option (σ → Except Usage σ)
  option? : String → Option (σ → String → Except Usage σ)
  operands : σ → List String → Except Usage σ
  many : Bool

/-- What has been begun and not yet settled. -/
inductive Unsettled (σ : Type) where
  | nothing
  /-- An option, with its value once that has been read. -/
  | option (set : σ → String → Except Usage σ) (value : Option String)
  | operands (words : List String)

structure Reading (σ : Type) where
  given : σ
  unsettled : Unsettled σ
  hasOperand : Bool
  /-- Whether all further words are operands. -/
  escaped : Bool

namespace Reading

variable {σ : Type} (g : Grammar σ)

/-- Settles what has been begun. An option needs its value. -/
def settle (r : Reading σ) : Except Usage σ :=
  match r.unsettled with
  | .nothing => .ok r.given
  | .option _ none => .error .invalidValue
  | .option set (some value) => set r.given value
  | .operands words => g.operands r.given words

def begin (r : Reading σ) (unsettled : Unsettled σ) : Except Usage (Reading σ) := do
  return { r with given := ← r.settle g, unsettled }

/-- Settles what has been begun, and applies something that needs no further word. -/
def apply (r : Reading σ) (set : σ → Except Usage σ) : Except Usage (Reading σ) := do
  return { r with given := ← set (← r.settle g), unsettled := .nothing }

/-- Reads an operand. It joins the run before it, if there may be several. -/
def operand (r : Reading σ) (text : String) : Except Usage (Reading σ) :=
  if r.hasOperand && !g.many then .error .unknownArgument
  else
    match r.unsettled with
    | .operands words => .ok { r with unsettled := .operands (words ++ [text]) }
    | _ => { r with hasOperand := true }.begin g (.operands [text])

def named (r : Reading σ) (name : String) (value : Option String) : Except Usage (Reading σ) :=
  match g.flag? name, g.option? name, value with
  | some set, _, none => r.apply g set
  | some _, _, some _ => .error .unneededValue
  | none, some set, none => r.begin g (.option set none)
  | none, some set, some value => r.apply g (set · value)
  | none, none, _ => .error .unknownArgument

/-- Reads a word. A plain word is the value of an option that still lacks its own. -/
def word (r : Reading σ) (text : String) : Except Usage (Reading σ) :=
  if r.escaped then r.operand g text
  else
    match Word.ofText text with
    | .escape => .ok { r with escaped := true }
    | .short letter =>
      if letter = 'h' then r.apply g fun _ => .error .help else .error .unknownArgument
    | .long name value => r.named g name value
    | .plain =>
      match r.unsettled with
      | .option set none => .ok { r with unsettled := .option set (some text) }
      | _ => r.operand g text

end Reading

namespace Grammar

variable {σ : Type}

/-- The same grammar with the flag that asks for help. -/
def withHelp (g : Grammar σ) : Grammar σ :=
  { g with flag? := fun name => if name = "help" then some fun _ => .error .help else g.flag? name }

/-- What a line of words gives, starting from what is there without any. -/
def read (g : Grammar σ) (start : σ) (words : List String) : Except Usage σ := do
  let r ← words.foldlM (Reading.word g.withHelp) ⟨start, .nothing, false, false⟩
  r.settle g

end Grammar

end Offside.Command
