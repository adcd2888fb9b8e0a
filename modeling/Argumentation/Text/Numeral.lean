import Argumentation.Decimal.Basic
import Argumentation.Word

namespace Argumentation.Text

def digitValue? (c : Char) : Option Nat :=
  if '0' ≤ c && c ≤ '9' then some (c.toNat - 48) else none

def hexValue? (c : Char) : Option Nat :=
  if '0' ≤ c && c ≤ '9' then some (c.toNat - 48)
  else if 'a' ≤ c && c ≤ 'f' then some (c.toNat - 87)
  else if 'A' ≤ c && c ≤ 'F' then some (c.toNat - 55)
  else none

def isDigit (c : Char) : Bool :=
  (digitValue? c).isSome

def valueOf (base : Nat) (cs : List Char) : Nat :=
  (cs.filterMap hexValue?).foldl (fun n d ↦ n * base + d) 0

def decimalOf (whole fraction : List Char) (exponent : Int) : Decimal :=
  ⟨valueOf 10 (whole ++ fraction), exponent - fraction.length⟩

def signed (negative : Bool) (n : Nat) : Int :=
  if negative then -(n : Int) else n

def takeSign : List Char → Bool × List Char
  | '-' :: cs => (true, cs)
  | '+' :: cs => (false, cs)
  | cs => (false, cs)

def takeDigits (cs : List Char) : List Char × List Char :=
  (cs.takeWhile isDigit, cs.dropWhile isDigit)

def takeExponent (cs : List Char) : Option (Int × List Char) :=
  match cs with
  | 'e' :: cs | 'E' :: cs =>
    let (negative, cs) := takeSign cs
    let (ds, rest) := takeDigits cs
    if ds.isEmpty then none else some (signed negative (valueOf 10 ds), rest)
  | _ => some (0, cs)

/-- A double in the widest spelling: a sign, digits on either side of a point, a power of ten, or
the names of infinity and NaN in any case. -/
def float? (s : String) : Option Float :=
  let (negative, cs) := takeSign s.toList
  let name := cs.map Char.toLower
  if name = "inf".toList || name = "infinity".toList then
    some (if negative then -1.0 / 0.0 else 1.0 / 0.0)
  else if name = "nan".toList then some (0.0 / 0.0)
  else
    let (whole, rest) := takeDigits cs
    let (fraction, rest) := match rest with
      | '.' :: rest => takeDigits rest
      | _ => ([], rest)
    if whole.isEmpty && fraction.isEmpty then none
    else match takeExponent rest with
      | some (exponent, []) => some ((decimalOf whole fraction exponent).toFloat negative)
      | _ => none

def nat64? (s : String) : Option Nat :=
  let cs := match s.toList with
    | '+' :: cs => cs
    | cs => cs
  if cs.isEmpty || !cs.all isDigit then none
  else
    let n := valueOf 10 cs
    if isNat64 n then some n else none

end Argumentation.Text
