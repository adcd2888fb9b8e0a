import Argumentation.Settings
import Argumentation.Text.Numeral

namespace Argumentation.CommandLine

structure Given where
  config : Option String
  semantics : Option Semantics
  valuation : Option Valuation
  transposing : Bool
  restricted : Bool
  minStrength : Option Float
  maxDepth : Option Nat
  json : Bool
  document : Option String

namespace Given

def nothing : Given where
  config := none
  semantics := none
  valuation := none
  transposing := false
  restricted := false
  minStrength := none
  maxDepth := none
  json := false
  document := none

def after (later earlier : Given) : Given where
  config := later.config <|> earlier.config
  semantics := later.semantics <|> earlier.semantics
  valuation := later.valuation <|> earlier.valuation
  transposing := later.transposing || earlier.transposing
  restricted := later.restricted || earlier.restricted
  minStrength := later.minStrength <|> earlier.minStrength
  maxDepth := later.maxDepth <|> earlier.maxDepth
  json := later.json || earlier.json
  document := later.document <|> earlier.document

def adjust (g : Given) (s : Settings) : Settings where
  semantics := g.semantics.getD s.semantics
  transposing := g.transposing || s.transposing
  restricted := g.restricted || s.restricted
  valuation := g.valuation.getD s.valuation
  minStrength := g.minStrength.getD s.minStrength
  maxDepth := g.maxDepth.getD s.maxDepth

end Given

inductive Command where
  | query
  | info
  deriving DecidableEq, Repr

def Command.ofText? (s : String) : Option Command :=
  if s = "query" then some .query else if s = "info" then some .info else none

inductive Topic where
  | program
  | command (command : Command)
  | help
  deriving DecidableEq, Repr

inductive Request where
  | run (command : Command) (document : String) (given : Given)
  | version
  | help (topic : Topic)
  | misuse

inductive Token where
  | long (name : String) (value : Option String)
  | short (letters : List Char)
  | word (s : String)
  | separator
  | escaped (s : String)

def valuedOptions : List String :=
  ["config", "semantics", "valuation", "min-strength", "max-depth"]

def Token.ofWord (s : String) : Token :=
  match s.toList with
  | '-' :: '-' :: cs =>
    let name := String.ofList (cs.takeWhile (· != '='))
    match cs.dropWhile (· != '=') with
    | '=' :: value => .long name (some (String.ofList value))
    | _ => .long name none
  | '-' :: c :: cs => .short (c :: cs)
  | _ => .word s

/-- The parts of a command line. An option that takes a value and has none attached takes the next
word, unless that is an option too. -/
def tokens : List String → List Token
  | [] => []
  | "--" :: rest => .separator :: rest.map .escaped
  | [s] => [.ofWord s]
  | s :: next :: rest =>
    match Token.ofWord s, Token.ofWord next with
    | .long name none, .word value =>
      if valuedOptions.contains name then .long name (some value) :: tokens rest
      else .long name none :: tokens (next :: rest)
    | t, _ => t :: tokens (next :: rest)

def fill {α : Type} (slot value : Option α) : Option (Option α) :=
  if slot.isSome then none else value.map some

def path? (s : String) : Option String :=
  if s = "" then none else some s

namespace Given

def withValue (g : Given) (name value : String) : Option Given :=
  if name = "config" then
    (fill g.config (path? value)).map fun x ↦ { g with config := x }
  else if name = "semantics" then
    (fill g.semantics (Semantics.ofText value).toOption).map fun x ↦ { g with semantics := x }
  else if name = "valuation" then
    (fill g.valuation (Valuation.ofText value).toOption).map fun x ↦ { g with valuation := x }
  else if name = "min-strength" then
    (fill g.minStrength (Text.float? value)).map fun x ↦ { g with minStrength := x }
  else if name = "max-depth" then
    (fill g.maxDepth (Text.nat64? value)).map fun x ↦ { g with maxDepth := x }
  else none

def withFlag (g : Given) (command : Option Command) (name : String) : Option Given :=
  if name = "transposition" && !g.transposing then some { g with transposing := true }
  else if name = "restricted-rebutting" && !g.restricted then some { g with restricted := true }
  else if name = "json" && command = some .query && !g.json then some { g with json := true }
  else none

def withOption (g : Given) (command : Option Command) (name : String) (value : Option String) :
    Option Given :=
  match value with
  | some value => g.withValue name value
  | none => g.withFlag command name

def withDocument (g : Given) (s : String) : Option Given :=
  (fill g.document (path? s)).map fun x ↦ { g with document := x }

end Given

def readCommand (command : Command) (earlier : Given) : List Token → Given → Request
  | [], g =>
    match g.document with
    | some document => .run command document (g.after earlier)
    | none => .misuse
  | .long name value :: rest, g =>
    if name = "help" && value.isNone then .help (.command command)
    else match g.withOption (some command) name value with
      | some g => readCommand command earlier rest g
      | none => .misuse
  | .short letters :: _, _ =>
    if letters.head? == some 'h' then .help (.command command) else .misuse
  | .separator :: rest, g => readCommand command earlier rest g
  | .word s :: rest, g | .escaped s :: rest, g =>
    match g.withDocument s with
    | some g => readCommand command earlier rest g
    | none => .misuse

def readTopic : List Token → Request
  | [] => .help .program
  | [.word s] =>
    match Command.ofText? s with
    | some command => .help (.command command)
    | none => if s = "help" then .help .help else .misuse
  | _ => .misuse

def read : List Token → Given → Request
  | [], _ => .misuse
  | .long name value :: rest, g =>
    if name = "version" && value.isNone then .version
    else if name = "help" && value.isNone then .help .program
    else match g.withOption none name value with
      | some g => read rest g
      | none => .misuse
  | .short letters :: _, _ =>
    if letters.head? == some 'V' then .version
    else if letters.head? == some 'h' then .help .program
    else .misuse
  | .word s :: rest, g =>
    match Command.ofText? s with
    | some command => readCommand command g rest .nothing
    | none => if s = "help" then readTopic rest else .misuse
  | .separator :: _, _ | .escaped _ :: _, _ => .misuse

def Request.ofWords (words : List String) : Request :=
  read (tokens words) .nothing

end Argumentation.CommandLine
