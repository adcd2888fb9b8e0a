import Argumentation.Text.Numeral

namespace Argumentation.Toml

def twoDigits? (bound : Nat) : List Char → Option (Nat × List Char)
  | a :: b :: cs =>
    if Text.isDigit a && Text.isDigit b && Text.valueOf 10 [a, b] ≤ bound then
      some (Text.valueOf 10 [a, b], cs)
    else none
  | _ => none

def expect? (c : Char) : List Char → Option (List Char)
  | d :: cs => if c = d then some cs else none
  | [] => none

def daysInMonth (year month : Nat) : Nat :=
  if month = 2 then
    if year % 4 = 0 && (year % 100 != 0 || year % 400 = 0) then 29 else 28
  else if month = 4 || month = 6 || month = 9 || month = 11 then 30
  else 31

def date? (cs : List Char) : Option (List Char) := do
  let year := cs.take 4
  if !(year.length == 4 && year.all Text.isDigit) then none
  let cs ← expect? '-' (cs.drop 4)
  let (month, cs) ← twoDigits? 12 cs
  let cs ← expect? '-' cs
  let (day, cs) ← twoDigits? 31 cs
  if 1 ≤ month && 1 ≤ day && day ≤ daysInMonth (Text.valueOf 10 year) month then some cs else none

def time? (cs : List Char) : Option (List Char) := do
  let (_, cs) ← twoDigits? 23 cs
  let cs ← expect? ':' cs
  let (_, cs) ← twoDigits? 59 cs
  let cs ← expect? ':' cs
  let (_, cs) ← twoDigits? 60 cs
  match cs with
  | '.' :: cs =>
    let (ds, rest) := Text.takeDigits cs
    if ds.isEmpty then none else some rest
  | _ => some cs

def isOffset (cs : List Char) : Bool :=
  match cs with
  | [] => true
  | ['Z'] | ['z'] => true
  | c :: cs =>
    (c == '+' || c == '-') &&
      (((twoDigits? 23 cs).bind fun (_, cs) ↦ expect? ':' cs).bind (twoDigits? 59)).any
        (·.2.isEmpty)

def isMoment (cs : List Char) : Bool :=
  match date? cs with
  | some [] => true
  | some (c :: rest) => (c == 'T' || c == 't' || c == ' ') && (time? rest).any isOffset
  | none => (time? cs).any List.isEmpty

end Argumentation.Toml
