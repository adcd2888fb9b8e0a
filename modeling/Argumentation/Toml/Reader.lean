import Argumentation.Toml.Basic
import Argumentation.Word

namespace Argumentation.Toml

def maxNesting : Nat := 79

def skipSpaces (cs : List Char) : List Char :=
  cs.dropWhile fun c ↦ c == ' ' || c == '\t'

def takeNewline? : List Char → Option (List Char)
  | '\n' :: cs => some cs
  | '\r' :: '\n' :: cs => some cs
  | _ => none

def isPrintable (c : Char) : Bool :=
  c == '\t' || (0x20 ≤ c.toNat && c != '\x7f')

def skipComment (cs : List Char) : List Char :=
  match cs with
  | '#' :: cs => cs.dropWhile isPrintable
  | cs => cs

def endLine? (cs : List Char) : Option (List Char) :=
  match skipComment (skipSpaces cs) with
  | [] => some []
  | cs => takeNewline? cs

def skipLines : (fuel : Nat) → List Char → List Char
  | 0, cs => cs
  | fuel + 1, cs =>
    let rest := skipComment (skipSpaces cs)
    match takeNewline? rest with
    | some rest => skipLines fuel rest
    | none => rest

def hexNumber? (cs : List Char) : Option Nat :=
  if cs.all fun c ↦ (Text.hexValue? c).isSome then some (Text.valueOf 16 cs) else none

def scalar? (n : Nat) : Option Char :=
  if n < 0xD800 || (0xE000 ≤ n && n < 0x110000) then some (Char.ofNat n) else none

def readEscape : List Char → Option (Char × List Char)
  | 'b' :: cs => some ('\x08', cs)
  | 't' :: cs => some ('\t', cs)
  | 'n' :: cs => some ('\n', cs)
  | 'f' :: cs => some ('\x0c', cs)
  | 'r' :: cs => some ('\r', cs)
  | '"' :: cs => some ('"', cs)
  | '\\' :: cs => some ('\\', cs)
  | 'u' :: cs => escapeOf 4 cs
  | 'U' :: cs => escapeOf 8 cs
  | _ => none
where
  escapeOf (n : Nat) (cs : List Char) : Option (Char × List Char) :=
    if cs.length < n then none
    else ((hexNumber? (cs.take n)).bind scalar?).map (·, cs.drop n)

def readBasic : (fuel : Nat) → List Char → Option (List Char × List Char)
  | 0, _ => none
  | _ + 1, '"' :: cs => some ([], cs)
  | fuel + 1, '\\' :: cs =>
    (readEscape cs).bind fun (c, cs) ↦ (readBasic fuel cs).map fun (s, cs) ↦ (c :: s, cs)
  | fuel + 1, c :: cs =>
    if isPrintable c then (readBasic fuel cs).map fun (s, cs) ↦ (c :: s, cs) else none
  | _ + 1, [] => none

def readLiteral : List Char → Option (List Char × List Char)
  | '\'' :: cs => some ([], cs)
  | c :: cs => if isPrintable c then (readLiteral cs).map fun (s, cs) ↦ (c :: s, cs) else none
  | [] => none

/-- Quotes at the end of a text over several lines: three of them close it, and up to two before
those belong to it. -/
def closingQuotes (quote : Char) (cs : List Char) : Option (List Char × List Char) :=
  let n := (cs.takeWhile (· == quote)).length
  if n < 3 then none
  else
    let own := min (n - 3) 2
    some (List.replicate own quote, cs.drop (own + 3))

def skipBlankLines : List Char → List Char
  | ' ' :: cs | '\t' :: cs | '\n' :: cs | '\r' :: '\n' :: cs => skipBlankLines cs
  | cs => cs

/-- A text over several lines, behind the opening quotes. In double quotes a backslash at the end of
a line takes away the blanks and ends of lines behind it. -/
def readLong (quote : Char) : (fuel : Nat) → List Char → Option (List Char × List Char)
  | 0, _ => none
  | _ + 1, [] => none
  | fuel + 1, c :: cs =>
    if c == quote then
      match closingQuotes quote (c :: cs) with
      | some closed => some closed
      | none => (readLong quote fuel cs).map fun (s, cs) ↦ (c :: s, cs)
    else match takeNewline? (c :: cs) with
      | some rest => (readLong quote fuel rest).map fun (s, cs) ↦ ('\n' :: s, cs)
      | none =>
        if c == '\\' && quote == '"' then
          match takeNewline? (skipSpaces cs) with
          | some rest => readLong quote fuel (skipBlankLines rest)
          | none =>
            (readEscape cs).bind fun (c, cs) ↦
              (readLong quote fuel cs).map fun (s, cs) ↦ (c :: s, cs)
        else if isPrintable c then (readLong quote fuel cs).map fun (s, cs) ↦ (c :: s, cs)
        else none

def dropNewline (cs : List Char) : List Char :=
  (takeNewline? cs).getD cs

def readText (cs : List Char) : Option (String × List Char) :=
  let found := match cs with
    | '"' :: '"' :: '"' :: cs => readLong '"' (cs.length + 1) (dropNewline cs)
    | '\'' :: '\'' :: '\'' :: cs => readLong '\'' (cs.length + 1) (dropNewline cs)
    | '"' :: cs => readBasic (cs.length + 1) cs
    | '\'' :: cs => readLiteral cs
    | _ => none
  found.map fun (s, cs) ↦ (String.ofList s, cs)

def isBareKey (c : Char) : Bool :=
  ('a' ≤ c && c ≤ 'z') || ('A' ≤ c && c ≤ 'Z') || Text.isDigit c || c == '_' || c == '-'

def readKeyPart (cs : List Char) : Option (String × List Char) :=
  match cs with
  | '"' :: cs => (readBasic (cs.length + 1) cs).map fun (s, cs) ↦ (String.ofList s, cs)
  | '\'' :: cs => (readLiteral cs).map fun (s, cs) ↦ (String.ofList s, cs)
  | cs =>
    let word := cs.takeWhile isBareKey
    if word.isEmpty then none else some (String.ofList word, cs.dropWhile isBareKey)

def readKeyParts : (fuel : Nat) → List Char → Option (List String × List Char)
  | 0, _ => none
  | fuel + 1, cs =>
    (readKeyPart (skipSpaces cs)).bind fun (part, cs) ↦
      match skipSpaces cs with
      | '.' :: cs => (readKeyParts fuel cs).map fun (parts, cs) ↦ (part :: parts, cs)
      | cs => some ([part], cs)

def readKey (cs : List Char) : Option (List String × List Char) :=
  (readKeyParts (cs.length + 1) cs).filter fun (parts, _) ↦ parts.length ≤ maxNesting

def digits? (isDigit : Char → Bool) : List Char → Option (List Char)
  | [] => none
  | [c] => if isDigit c then some [c] else none
  | c :: '_' :: cs => if isDigit c then (digits? isDigit cs).map (c :: ·) else none
  | c :: cs => if isDigit c then (digits? isDigit cs).map (c :: ·) else none

def intInRange? (n : Int) : Option Toml :=
  if isInt64 n then some (.int n) else none

def decimalDigits? (cs : List Char) : Option (List Char) :=
  (digits? Text.isDigit cs).filter fun ds ↦ ds.length == 1 || ds.head? != some '0'

def float? (negative : Bool) (cs : List Char) : Option Toml := do
  let isMark (c : Char) : Bool := c == 'e' || c == 'E'
  let whole := cs.takeWhile fun c ↦ c != '.' && !isMark c
  let rest := cs.drop whole.length
  let ds ← decimalDigits? whole
  let (places, rest) ← match rest with
    | '.' :: rest =>
      let places := rest.takeWhile fun c ↦ !isMark c
      (digits? Text.isDigit places).map (·, rest.drop places.length)
    | _ => some ([], rest)
  let exponent ← match rest with
    | [] => some 0
    | _ :: rest =>
      let (minus, rest) := Text.takeSign rest
      (digits? Text.isDigit rest).map fun ds ↦ Text.signed minus (Text.valueOf 10 ds)
  let x := (Text.decimalOf ds places exponent).toFloat negative
  if x == 1.0 / 0.0 then none else some (.float x)

/-- A word as a number. Only decimal integers have a sign. -/
def number? (cs : List Char) : Option Toml :=
  let isBase (allowed : String) (c : Char) : Bool := allowed.toList.contains c
  match cs with
  | '0' :: 'x' :: cs =>
    (digits? (fun c ↦ (Text.hexValue? c).isSome) cs).bind fun ds ↦ intInRange? (Text.valueOf 16 ds)
  | '0' :: 'o' :: cs =>
    (digits? (isBase "01234567") cs).bind fun ds ↦ intInRange? (Text.valueOf 8 ds)
  | '0' :: 'b' :: cs =>
    (digits? (isBase "01") cs).bind fun ds ↦ intInRange? (Text.valueOf 2 ds)
  | cs =>
    let (negative, body) := Text.takeSign cs
    if body = "inf".toList then some (.float (if negative then -1.0 / 0.0 else 1.0 / 0.0))
    else if body = "nan".toList then some (.float (0.0 / 0.0))
    else match decimalDigits? body with
      | some ds => intInRange? (Text.signed negative (Text.valueOf 10 ds))
      | none => float? negative body

def isWordChar (c : Char) : Bool :=
  isBareKey c || c == '+' || c == '.' || c == ':'

/-- The word at the front and the rest. A date may be followed by a blank and a time. -/
def takeWord (cs : List Char) : List Char × List Char :=
  let word := cs.takeWhile isWordChar
  let rest := cs.drop word.length
  match date? word, rest with
  | some [], ' ' :: c :: more =>
    if Text.isDigit c then
      let time := (c :: more).takeWhile isWordChar
      (word ++ ' ' :: time, (c :: more).drop time.length)
    else (word, rest)
  | _, _ => (word, rest)

def word? (cs : List Char) : Option Toml :=
  if cs = "true".toList then some (.bool true)
  else if cs = "false".toList then some (.bool false)
  else if isMoment cs then some .moment
  else number? cs

def readItems (value : List Char → Option (Toml × List Char)) :
    (fuel : Nat) → List Char → Option (List Toml × List Char)
  | 0, _ => none
  | fuel + 1, cs =>
    match skipLines (cs.length + 1) cs with
    | ']' :: cs => some ([], cs)
    | cs =>
      (value cs).bind fun (x, cs) ↦
        match skipLines (cs.length + 1) cs with
        | ']' :: cs => some ([x], cs)
        | ',' :: cs => (readItems value fuel cs).map fun (xs, cs) ↦ (x :: xs, cs)
        | _ => none

def readPair (value : List Char → Option (Toml × List Char)) (cs : List Char) :
    Option ((List String × String × Toml) × List Char) := do
  let (parts, cs) ← readKey cs
  let cs ← expect? '=' cs
  let (x, cs) ← value (skipSpaces cs)
  let key ← parts.getLast?
  return ((parts.dropLast, key, x), cs)

def readPairs (value : List Char → Option (Toml × List Char)) :
    (fuel : Nat) → List Char → Option (List (List String × String × Toml) × List Char)
  | 0, _ => none
  | fuel + 1, cs =>
    (readPair value cs).bind fun (p, cs) ↦
      match skipSpaces cs with
      | '\x7d' :: cs => some ([p], cs)
      | ',' :: cs => (readPairs value fuel cs).map fun (ps, cs) ↦ (p :: ps, cs)
      | _ => none

def readScalar (cs : List Char) : Option (Toml × List Char) :=
  match cs with
  | '"' :: _ | '\'' :: _ => (readText cs).map fun (s, cs) ↦ (.string s, cs)
  | cs =>
    let (word, rest) := takeWord cs
    (word? word).map (·, rest)

def readValue : (nesting : Nat) → List Char → Option (Toml × List Char)
  | 0, cs => readScalar cs
  | nesting + 1, cs =>
    match cs with
    | '[' :: cs =>
      (readItems (readValue nesting) (cs.length + 1) cs).map fun (items, cs) ↦ (.array items, cs)
    | '\x7b' :: cs =>
      match skipSpaces cs with
      | '\x7d' :: cs => some (.table .inline [], cs)
      | cs =>
        (readPairs (readValue nesting) (cs.length + 1) cs).bind fun (pairs, cs) ↦
          (enterAll pairs []).map fun es ↦ (.table .inline es, cs)
    | cs => readScalar cs

def readHeader (cs : List Char) : Option (Section × List Char) :=
  match cs with
  | '[' :: cs => do
    let (path, cs) ← readKey cs
    let cs ← expect? ']' cs
    let cs ← expect? ']' cs
    return (⟨path, true, []⟩, ← endLine? cs)
  | cs => do
    let (path, cs) ← readKey cs
    let cs ← expect? ']' cs
    return (⟨path, false, []⟩, ← endLine? cs)

def readSections : (fuel : Nat) → Section → List Char → Option (List Section)
  | 0, _, _ => none
  | fuel + 1, sec, cs =>
    match skipSpaces cs with
    | [] => some [sec]
    | '[' :: cs =>
      (readHeader cs).bind fun (next, cs) ↦ (readSections fuel next cs).map (sec :: ·)
    | cs =>
      match endLine? cs with
      | some cs => readSections fuel sec cs
      | none => do
        let (pair, cs) ← readPair (readValue maxNesting) cs
        readSections fuel { sec with pairs := sec.pairs ++ [pair] } (← endLine? cs)

def ofText? (s : String) : Option Entries := do
  let cs := match s.toList with
    | '\uFEFF' :: cs => cs
    | cs => cs
  let sections ← readSections (cs.length + 1) ⟨[], false, []⟩ cs
  settleEntries (← sections.foldlM (fun root sec ↦ sec.enter root) [])

end Argumentation.Toml
