namespace Argumentation

inductive Tie where
  | toEven
  | up
  deriving DecidableEq, Repr

def roundDiv (tie : Tie) (num den : Nat) : Nat :=
  let q := num / den
  let twice := 2 * (num % den)
  if twice < den then q
  else if den < twice then q + 1
  else match tie with
    | .up => q + 1
    | .toEven => q + q % 2

structure Ratio where
  num : Nat
  den : Nat
  deriving Repr

def Ratio.scale (r : Ratio) (base : Nat) (e : Int) : Ratio :=
  ⟨r.num * Nat.pow base e.toNat, r.den * Nat.pow base (-e).toNat⟩

/-- The magnitude of a finite double, `mantissa * 2 ^ exponent`. -/
structure Magnitude where
  mantissa : Nat
  exponent : Int
  atPowerOfTwo : Bool
  deriving Repr

def Magnitude.hiddenBit : Nat := 0x10000000000000

def Magnitude.ofBits (bits : Nat) : Magnitude :=
  let e : Nat := bits / hiddenBit % 2048
  let f : Nat := bits % hiddenBit
  if e = 0 then ⟨f, -1074, false⟩ else ⟨hiddenBit + f, e - 1075, f = 0 && 1 < e⟩

def Magnitude.ratio (x : Magnitude) : Ratio :=
  Ratio.scale ⟨x.mantissa, 1⟩ 2 x.exponent

structure Decimal where
  coefficient : Nat
  exponent : Int
  deriving DecidableEq, Repr

namespace Decimal

def digits (d : Decimal) : List Char :=
  Nat.toDigits 10 d.coefficient

def leading (d : Decimal) : Int :=
  d.digits.length - 1 + d.exponent

def trim : (fuel : Nat) → Decimal → Decimal
  | 0, d => d
  | fuel + 1, d =>
    if d.coefficient ≠ 0 ∧ d.coefficient % 10 = 0 then
      trim fuel ⟨d.coefficient / 10, d.exponent + 1⟩
    else d

def ratio (d : Decimal) : Ratio :=
  Ratio.scale ⟨d.coefficient, 1⟩ 10 d.exponent

def infinityBits : Nat := 0x7FF0000000000000

def signBit : Nat := 0x8000000000000000

def floorLog2 (r : Ratio) : Int :=
  let e : Int := r.num.log2 - r.den.log2
  if r.num * Nat.pow 2 (-e).toNat < r.den * Nat.pow 2 e.toNat then e - 1 else e

def nearestBits (r : Ratio) : Nat :=
  if r.num = 0 then 0 else
    let q := max (floorLog2 r - 52) (-1074)
    let s := r.scale 2 (-q)
    min ((q + 1074).toNat * Magnitude.hiddenBit + roundDiv .toEven s.num s.den) infinityBits

/-- The bits of the double nearest to a decimal. Decimals from `10 ^ 310` on are past the largest
double and those below `10 ^ (-330)` nearest to zero, so no larger power of ten is computed. -/
def toBits (d : Decimal) : Nat :=
  if d.coefficient = 0 ∨ d.leading < -330 then 0
  else if 310 ≤ d.leading then infinityBits
  else nearestBits d.ratio

def toFloat (negative : Bool) (d : Decimal) : Float :=
  Float.ofBits (UInt64.ofNat (d.toBits + if negative then signBit else 0))

end Decimal

end Argumentation
