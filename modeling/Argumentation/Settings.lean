import Argumentation.Argument.Valuation
import Argumentation.Dialogue.Semantics
import Argumentation.Document.Reader
import Argumentation.Toml.Reader

namespace Argumentation

structure Settings where
  semantics : Semantics
  transposing : Bool
  restricted : Bool
  valuation : Valuation
  minStrength : Float
  maxDepth : Nat

namespace Settings

def default : Settings where
  semantics := .grounded
  transposing := false
  restricted := false
  valuation := .weakestLink
  minStrength := 0
  maxDepth := 64

instance : Inhabited Settings := ⟨default⟩

def same (a b : Settings) : Bool :=
  a.semantics = b.semantics && a.transposing == b.transposing && a.restricted == b.restricted &&
    a.valuation = b.valuation && a.minStrength == b.minStrength && a.maxDepth == b.maxDepth

def check (s : Settings) : Except SettingsError Settings :=
  if 0 ≤ s.minStrength && s.minStrength ≤ 1 then .ok s else .error (.threshold s.minStrength)

def choiceOfJson? {α : Type} (ofText : String → Except SettingsError α) : Json → Option α
  | .string s => (ofText s).toOption
  | .object [(s, .null)] => (ofText s).toOption
  | _ => none

def natOfJson? (j : Json) : Option Nat :=
  j.nat?.filter isNat64

def ofJson? (j : Json) : Option Settings := do
  let keys := ["semantics", "transposition", "restricted_rebutting", "valuation", "min_strength",
    "max_argument_depth"]
  match ← j.recordFields? keys with
  | [semantics, transposing, restricted, valuation, minStrength, maxDepth] =>
    return {
      semantics := ← Json.readOr default.semantics (choiceOfJson? Semantics.ofText) semantics
      transposing := ← Json.readOr default.transposing Json.bool? transposing
      restricted := ← Json.readOr default.restricted Json.bool? restricted
      valuation := ← Json.readOr default.valuation (choiceOfJson? Valuation.ofText) valuation
      minStrength := ← Json.readOr default.minStrength Json.double? minStrength
      maxDepth := ← Json.readOr default.maxDepth natOfJson? maxDepth }
  | _ => none

def entryOr {α : Type} (es : Toml.Entries) (key : String) (default : α)
    (read : Toml → Option α) : Option α :=
  match es.lookup key with
  | none => some default
  | some x => read x

def choiceOfToml? {α : Type} (ofText : String → Except SettingsError α) : Toml → Option α
  | .string s => (ofText s).toOption
  | .table _ [(s, .table _ [])] => (ofText s).toOption
  | .table _ [(s, .array [])] => (ofText s).toOption
  | _ => none

def boolOfToml? : Toml → Option Bool
  | .bool b => some b
  | _ => none

def floatOfToml? : Toml → Option Float
  | .float x => some x
  | .int n => (Json.int n).double?
  | _ => none

def natOfToml? : Toml → Option Nat
  | .int n => if 0 ≤ n then some n.toNat else none
  | _ => none

def ofEntries? (es : Toml.Entries) : Option Settings := do
  return {
    semantics := ← entryOr es "semantics" default.semantics (choiceOfToml? Semantics.ofText)
    transposing := ← entryOr es "transposition" default.transposing boolOfToml?
    restricted := ← entryOr es "restricted_rebutting" default.restricted boolOfToml?
    valuation := ← entryOr es "valuation" default.valuation (choiceOfToml? Valuation.ofText)
    minStrength := ← entryOr es "min_strength" default.minStrength floatOfToml?
    maxDepth := ← entryOr es "max_argument_depth" default.maxDepth natOfToml? }

def checkName {α : Type} (es : Toml.Entries) (key : String)
    (ofText : String → Except SettingsError α) : Except SettingsError Unit :=
  match es.lookup key with
  | some (.string s) => (ofText s).map fun _ ↦ ()
  | _ => .ok ()

def ofToml (path text : String) : Except SettingsError Settings := do
  match Toml.ofText? text with
  | none => throw (.malformed path "not a TOML text")
  | some es =>
    checkName es "semantics" Semantics.ofText
    checkName es "valuation" Valuation.ofText
    match ofEntries? es with
    | none => throw (.malformed path "a value of the wrong kind")
    | some s => s.check

def inlinePath : String := "<inline>"

def toToml (path : String) (s : Settings) : Except SettingsError String :=
  let line (key value : String) : String := key ++ " = " ++ value ++ "\n"
  let boolText (b : Bool) : String := if b then "true" else "false"
  if isInt64 s.maxDepth then
    .ok <|
      line "semantics" (Json.quote s.semantics.text) ++
      line "transposition" (boolText s.transposing) ++
      line "restricted_rebutting" (boolText s.restricted) ++
      line "valuation" (Json.quote s.valuation.text) ++
      line "min_strength" (FloatLayout.settings.text s.minStrength) ++
      line "max_argument_depth" (toString s.maxDepth)
  else .error (.malformed path "an integer out of range")

end Settings

end Argumentation
