import Argumentation.Json.Basic
import Argumentation.Text.Numeral
import Argumentation.Word

namespace Argumentation.Json

def maxNesting : Nat := 127

def skipBlanks (cs : List Char) : List Char :=
  cs.dropWhile fun c ↦ c == ' ' || c == '\n' || c == '\t' || c == '\r'

/-- A number at the front of a text. Integers of 64 bits with or without a sign stay integers, all
other numbers and the negative zero are doubles. -/
def readNumber (cs : List Char) : Option (Json × List Char) := do
  let (negative, cs) := match cs with
    | '-' :: cs => (true, cs)
    | cs => (false, cs)
  let (whole, rest) := Text.takeDigits cs
  if whole.isEmpty || (whole.head? == some '0' && 1 < whole.length) then none
  let (fraction, rest') ← match rest with
    | '.' :: rest =>
      let (fraction, rest) := Text.takeDigits rest
      if fraction.isEmpty then none else some (fraction, rest)
    | _ => some ([], rest)
  let (exponent, rest'') ← Text.takeExponent rest'
  let n := Text.signed negative (Text.valueOf 10 whole)
  let fits := if negative then isInt64 n && n != 0 else isNat64 n.toNat
  if rest''.length = rest.length && fits then
    return (int n, rest'')
  else
    let x := (Text.decimalOf whole fraction exponent).toFloat negative
    return (if x.isFinite then float x else invalid, rest'')

/-- A character of a text, or a unit of 16 bits that an escape stands for. -/
inductive Unit16 where
  | char (c : Char)
  | unit (n : Nat)

def readUnits : List Char → Option (List Unit16 × List Char)
  | '"' :: rest => some ([], rest)
  | '\\' :: 'u' :: a :: b :: c :: d :: rest =>
    match Text.hexValue? a, Text.hexValue? b, Text.hexValue? c, Text.hexValue? d with
    | some a, some b, some c, some d =>
      (readUnits rest).map fun (us, rest) ↦
        (.unit (((a * 16 + b) * 16 + c) * 16 + d) :: us, rest)
    | _, _, _, _ => none
  | '\\' :: e :: rest =>
    let escaped : Option Char :=
      if e = '"' || e = '\\' || e = '/' then some e
      else if e = 'b' then some '\x08'
      else if e = 'f' then some '\x0c'
      else if e = 'n' then some '\n'
      else if e = 'r' then some '\r'
      else if e = 't' then some '\t'
      else none
    escaped.bind fun c ↦ (readUnits rest).map fun (us, rest) ↦ (.char c :: us, rest)
  | c :: rest =>
    if c.toNat < 32 then none else (readUnits rest).map fun (us, rest) ↦ (.char c :: us, rest)
  | [] => none

def joinUnits : List Unit16 → Option (List Char)
  | [] => some []
  | .char c :: us => (joinUnits us).map (c :: ·)
  | .unit high :: .unit low :: us =>
    if high < 0xD800 || 0xE000 ≤ high then
      (joinUnits (.unit low :: us)).map (Char.ofNat high :: ·)
    else if high < 0xDC00 && 0xDC00 ≤ low && low < 0xE000 then
      (joinUnits us).map (Char.ofNat (0x10000 + (high - 0xD800) * 0x400 + (low - 0xDC00)) :: ·)
    else none
  | .unit n :: us =>
    if n < 0xD800 || 0xE000 ≤ n then (joinUnits us).map (Char.ofNat n :: ·) else none

def readString (cs : List Char) : Option (Option String × List Char) :=
  (readUnits cs).map fun (us, rest) ↦ ((joinUnits us).map String.ofList, rest)

def readItems {α : Type} (item : List Char → Option (α × List Char)) (close : Char) :
    (fuel : Nat) → List Char → Option (List α × List Char)
  | 0, _ => none
  | fuel + 1, cs =>
    match item cs with
    | none => none
    | some (a, rest) =>
      match skipBlanks rest with
      | [] => none
      | c :: rest =>
        if c = close then some ([a], rest)
        else if c = ',' then
          (readItems item close fuel rest).map fun (as, rest) ↦ (a :: as, rest)
        else none

def readBrackets {α : Type} (item : List Char → Option (α × List Char)) (close : Char)
    (cs : List Char) : Option (List α × List Char) :=
  match skipBlanks cs with
  | [] => none
  | c :: rest => if c = close then some ([], rest) else readItems item close (cs.length + 1) cs

def readField (value : List Char → Option (Json × List Char)) (cs : List Char) :
    Option ((Option String × Json) × List Char) :=
  match skipBlanks cs with
  | '"' :: rest =>
    match readString rest with
    | none => none
    | some (key, rest) =>
      match skipBlanks rest with
      | ':' :: rest => (value rest).map fun (x, rest) ↦ ((key, x), rest)
      | _ => none
  | _ => none

def ofFields (fields : List (Option String × Json)) : Json :=
  match fields.mapM fun (k, x) ↦ k.map (·, x) with
  | some fields => object fields
  | none => invalid

/-- A value inside so many brackets. Each step inwards reads a bracket, so a bound of the text's
length on the steps is none on the values. -/
def readValue : (fuel : Nat) → (nesting : Nat) → List Char → Option (Json × List Char)
  | 0, _, _ => none
  | fuel + 1, nesting, cs =>
    let bound (j : Json) := if nesting < maxNesting then j else invalid
    match skipBlanks cs with
    | 'n' :: 'u' :: 'l' :: 'l' :: rest => some (null, rest)
    | 't' :: 'r' :: 'u' :: 'e' :: rest => some (bool true, rest)
    | 'f' :: 'a' :: 'l' :: 's' :: 'e' :: rest => some (bool false, rest)
    | '"' :: rest => (readString rest).map fun (s, rest) ↦ ((s.map string).getD invalid, rest)
    | '[' :: rest =>
      (readBrackets (readValue fuel (nesting + 1)) ']' rest).map fun (items, rest) ↦
        (bound (array items), rest)
    | '\x7b' :: rest =>
      (readBrackets (readField (readValue fuel (nesting + 1))) '\x7d' rest).map
        fun (fields, rest) ↦ (bound (ofFields fields), rest)
    | cs => readNumber cs

def ofText? (s : String) : Option Json :=
  let cs := s.toList
  match readValue (cs.length + 1) 0 cs with
  | some (j, rest) => if (skipBlanks rest).isEmpty then some j else none
  | none => none

end Argumentation.Json
