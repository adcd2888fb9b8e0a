import Argumentation.Decimal.Layout

namespace Argumentation

inductive Json where
  | null
  | bool (b : Bool)
  | int (n : Int)
  | float (x : Float)
  | string (s : String)
  | array (items : List Json)
  | object (fields : List (String × Json))
  /-- What is written by the rules but has no value: a number past all doubles, a text with half of
  a surrogate pair, brackets nested too deep. -/
  | invalid
  deriving Inhabited

namespace Json

mutual

def isSound : Json → Bool
  | array items => areSound items
  | object fields => fieldsSound fields
  | invalid => false
  | _ => true

def areSound : List Json → Bool
  | [] => true
  | x :: xs => isSound x && areSound xs

def fieldsSound : List (String × Json) → Bool
  | [] => true
  | (_, x) :: fields => isSound x && fieldsSound fields

end

def record (fields : List (String × Json)) : Json :=
  object (fields.mergeSort fun a b ↦ a.1 ≤ b.1)

def ofNat (n : Nat) : Json :=
  int n

def ofOption {α : Type} (f : α → Json) : Option α → Json
  | some a => f a
  | none => null

def ofList {α : Type} (f : α → Json) (as : List α) : Json :=
  array (as.map f)

def field? (j : Json) (key : String) : Option Json :=
  match j with
  | object fields => fields.reverse.lookup key
  | _ => none

def string? : Json → Option String
  | string s => some s
  | _ => none

def bool? : Json → Option Bool
  | bool b => some b
  | _ => none

def nat? : Json → Option Nat
  | int n => if 0 ≤ n then some n.toNat else none
  | _ => none

def double? : Json → Option Float
  | int n => some (Decimal.toFloat (n < 0) ⟨n.natAbs, 0⟩)
  | float x => some x
  | _ => none

def items? : Json → Option (List Json)
  | array items => some items
  | _ => none

def hexDigit (n : Nat) : Char :=
  if n < 10 then Char.ofNat (48 + n) else Char.ofNat (87 + n)

def escapeChar (c : Char) : List Char :=
  if c = '"' then ['\\', '"']
  else if c = '\\' then ['\\', '\\']
  else if c = '\n' then ['\\', 'n']
  else if c = '\r' then ['\\', 'r']
  else if c = '\t' then ['\\', 't']
  else if c = '\x08' then ['\\', 'b']
  else if c = '\x0c' then ['\\', 'f']
  else if c.toNat < 32 then ['\\', 'u', '0', '0', hexDigit (c.toNat / 16), hexDigit (c.toNat % 16)]
  else [c]

def quote (s : String) : String :=
  String.ofList ('"' :: s.toList.flatMap escapeChar ++ ['"'])

def floatText (x : Float) : String :=
  if x.isFinite then FloatLayout.report.text x else "null"

mutual

def compact : Json → String
  | null => "null"
  | bool b => if b then "true" else "false"
  | int n => toString n
  | float x => floatText x
  | string s => quote s
  | array items => "[" ++ ",".intercalate (compactAll items) ++ "]"
  | object fields => "\x7b" ++ ",".intercalate (compactFields fields) ++ "\x7d"
  | invalid => "null"

def compactAll : List Json → List String
  | [] => []
  | x :: xs => compact x :: compactAll xs

def compactFields : List (String × Json) → List String
  | [] => []
  | (k, x) :: fields => (quote k ++ ":" ++ compact x) :: compactFields fields

end

def block (left right : String) (margin : String) (entries : List String) : String :=
  if entries.isEmpty then left ++ right
  else
    let line := "\n" ++ margin
    left ++ line ++ "  " ++ ("," ++ line ++ "  ").intercalate entries ++ line ++ right

mutual

def pretty (margin : String) : Json → String
  | array items => block "[" "]" margin (prettyAll (margin ++ "  ") items)
  | object fields => block "\x7b" "\x7d" margin (prettyFields (margin ++ "  ") fields)
  | j => compact j

def prettyAll (margin : String) : List Json → List String
  | [] => []
  | x :: xs => pretty margin x :: prettyAll margin xs

def prettyFields (margin : String) : List (String × Json) → List String
  | [] => []
  | (k, x) :: fields => (quote k ++ ": " ++ pretty margin x) :: prettyFields margin fields

end

end Json

end Argumentation
