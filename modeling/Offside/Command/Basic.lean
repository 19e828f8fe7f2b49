import Offside.Command.Grammar
import Offside.Session

/-! The commands: listing the tokens of a file, writing a state, and describing one. -/

namespace Offside

structure Command.LexArgs where
  file : Option String := none
  json : Bool := false
  checkpoint : Bool := false
  capacity : Option Nat := none
  /-- The marks to accept, in the order given; none stand for all. -/
  accept : List Mark := []
  keepComments : Bool := false
  deriving DecidableEq

structure Command.EncodeArgs where
  pending : Option UInt16 := none
  levels : List UInt16 := []
  deriving DecidableEq

structure Command.DecodeArgs where
  hex : List String := []
  strict : Bool := false
  deriving DecidableEq

inductive Command where
  | lex (file : String) (args : Command.LexArgs)
  | encode (args : Command.EncodeArgs)
  | decode (args : Command.DecodeArgs)
  deriving DecidableEq

namespace Command

/-- Gives something that may be given once. -/
def once {σ : Type} (given : Bool) (set : Except Usage σ) : Except Usage σ :=
  if given then .error .repeated else set

def numberOr {α : Type} : Option α → Except Usage α
  | some n => .ok n
  | none => .error .malformedNumber

def markOf (name : String) : Except Usage Mark :=
  if name = "newline" then .ok .newline
  else if name = "indent" then .ok .indent
  else if name = "dedent" then .ok .dedent
  else .error .invalidValue

namespace LexArgs

def capacityOrDefault (a : LexArgs) : Nat := a.capacity.getD Saved.bufferSize

def config (a : LexArgs) : Config where
  accept := if a.accept.isEmpty then .full else .ofList a.accept
  checkpoint := a.checkpoint
  capacity := a.capacityOrDefault
  skipComments := !a.keepComments

def flag? (name : String) : Option (LexArgs → Except Usage LexArgs) :=
  if name = "json" then some fun a => once a.json (.ok { a with json := true })
  else if name = "checkpoint" then
    some fun a => once a.checkpoint (.ok { a with checkpoint := true })
  else if name = "keep-comments" then
    some fun a => once a.keepComments (.ok { a with keepComments := true })
  else none

/-- The options. Marks are separated by commas, and their option may be given again. -/
def option? (name : String) : Option (LexArgs → String → Except Usage LexArgs) :=
  if name = "capacity" then
    some fun a text => once a.capacity.isSome do
      return { a with capacity := some (← numberOr (size? text)) }
  else if name = "accept" then
    some fun a text => do
      return { a with accept := a.accept ++ (← (text.splitOn ",").mapM markOf) }
  else none

def grammar : Grammar LexArgs where
  flag? := flag?
  option? := option?
  operands a words :=
    if words.any String.isEmpty then .error .invalidValue else .ok { a with file := words.head? }
  many := false

end LexArgs

namespace EncodeArgs

def option? (name : String) : Option (EncodeArgs → String → Except Usage EncodeArgs) :=
  if name = "pending" then
    some fun a text => once a.pending.isSome do
      return { a with pending := some (← numberOr (width? text)) }
  else none

def grammar : Grammar EncodeArgs where
  flag? _ := none
  option? := option?
  operands a words := do
    return { a with levels := a.levels ++ (← words.mapM fun w => numberOr (width? w)) }
  many := true

end EncodeArgs

namespace DecodeArgs

def flag? (name : String) : Option (DecodeArgs → Except Usage DecodeArgs) :=
  if name = "strict" then some fun a => once a.strict (.ok { a with strict := true }) else none

def grammar : Grammar DecodeArgs where
  flag? := flag?
  option? _ := none
  operands a words := .ok { a with hex := a.hex ++ words }
  many := true

end DecodeArgs

/-- Where a word names a command: at the start, or behind the name of a group. -/
inductive Menu where
  | top
  | state
  deriving DecidableEq

inductive Entry where
  | menu (m : Menu)
  | lex
  | encode
  | decode
  | help
  deriving DecidableEq

/-- What a name stands for; case matters. -/
def Menu.entry? (m : Menu) (name : String) : Option Entry :=
  if name = "help" then some .help
  else
    match m with
    | .top =>
      if name = "lex" then some .lex else if name = "state" then some (.menu .state) else none
    | .state =>
      if name = "encode" then some .encode else if name = "decode" then some .decode else none

/-- Asks for help on what the words name from a menu on; every word has to name something. -/
def helpOn : Option Menu → List String → Usage
  | _, [] => .help
  | none, _ :: _ => .unknownCommand
  | some m, name :: names =>
    match m.entry? name with
    | some (.menu m) => helpOn (some m) names
    | some _ => helpOn none names
    | none => .unknownCommand

/-- Why words from two hyphens on name no command: they are operands, which no menu takes. -/
def escapedUsage (m : Menu) : List String → Usage
  | [] => .missingCommand
  | name :: _ => if (m.entry? name).isSome then .unknownArgument else .unknownCommand

/-- Why an option names no command. Only two are known, and the version at the start alone. -/
def optionUsage (m : Menu) (isHelp isVersion hasValue : Bool) : Usage :=
  if !isHelp && !(isVersion && m == .top) then .unknownArgument
  else if hasValue then .unneededValue
  else if isHelp then .help
  else .version

def readLex (words : List String) : Except Usage Command := do
  let args ← LexArgs.grammar.read {} words
  match args.file with
  | some file => return .lex file args
  | none => .error .missingArgument

def readEncode (words : List String) : Except Usage Command := do
  return .encode (← EncodeArgs.grammar.read {} words)

def readDecode (words : List String) : Except Usage Command := do
  let args ← DecodeArgs.grammar.read {} words
  if args.hex.isEmpty then .error .missingArgument else return .decode args

def parseAt (m : Menu) : List String → Except Usage Command
  | [] => .error .missingCommand
  | text :: words =>
    match Word.ofText text with
    | .escape => .error (escapedUsage m words)
    | .short letter => .error (optionUsage m (letter = 'h') (letter = 'V') false)
    | .long name value =>
      .error (optionUsage m (name = "help") (name = "version") value.isSome)
    | .plain =>
      match m.entry? text with
      | some (.menu m) => parseAt m words
      | some .lex => readLex words
      | some .encode => readEncode words
      | some .decode => readDecode words
      | some .help => .error (helpOn (some m) words)
      | none => .error .unknownCommand

def parse (words : List String) : Except Usage Command := parseAt .top words

end Command

end Offside
