import Argumentation.Decimal.Basic

namespace Argumentation.Decimal

def floorLog10 (r : Ratio) : Int :=
  if r.den ≤ r.num then (Nat.toDigits 10 (r.num / r.den)).length - 1
  else -((Nat.toDigits 10 ((r.den - 1) / r.num)).length : Int)

/-- The reals that round to a double, its ends included iff the mantissa is even. All three ratios
share one denominator. -/
structure Interval where
  low : Nat
  value : Nat
  high : Nat
  den : Nat
  closed : Bool

def Interval.ofMagnitude (x : Magnitude) : Interval :=
  let unit := Ratio.scale ⟨1, 1⟩ 2 (x.exponent - 2)
  let v := 4 * x.mantissa
  { low := (v - if x.atPowerOfTwo then 1 else 2) * unit.num
    value := v * unit.num
    high := (v + 2) * unit.num
    den := unit.den
    closed := x.mantissa % 2 = 0 }

def Interval.contains (i : Interval) (c : Nat) (e : Int) : Bool :=
  let point := c * i.den * Nat.pow 10 e.toNat
  let unit := Nat.pow 10 (-e).toNat
  if i.closed then i.low * unit ≤ point && point ≤ i.high * unit
  else i.low * unit < point && point < i.high * unit

def Interval.nearest? (i : Interval) (tie : Tie) (e : Int) : Option Decimal :=
  let num := i.value * Nat.pow 10 (-e).toNat
  let den := i.den * Nat.pow 10 e.toNat
  let c := num / den
  match i.contains c e, i.contains (c + 1) e with
  | true, true => some ⟨roundDiv tie num den, e⟩
  | true, false => some ⟨c, e⟩
  | false, true => some ⟨c + 1, e⟩
  | false, false => none

/-- The fewest digits that read back, for a magnitude other than zero. Seventeen digits always
do, so the grids from one to seventeen digits are enough. -/
def shortest (tie : Tie) (x : Magnitude) : Decimal :=
  let i := Interval.ofMagnitude x
  let k := floorLog10 ⟨i.value, i.den⟩
  let hit := (List.range 17).findSome? fun (n : Nat) ↦ i.nearest? tie (k - n)
  trim 17 (hit.getD ⟨i.value, k⟩)

end Argumentation.Decimal
