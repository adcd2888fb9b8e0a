import Argumentation.Decimal.Layout
import Argumentation.Word

namespace Argumentation

inductive Number where
  | int (value : Int64)
  | float (value : Float)
  deriving Inhabited

inductive Arith where
  | add
  | sub
  | mul
  | div
  deriving DecidableEq, Repr

inductive Comparison where
  | equal
  | notEqual
  | less
  | greater
  | lessOrEqual
  | greaterOrEqual
  deriving DecidableEq, Repr

namespace Number

/-- Numbers of different kinds are different; doubles are compared as doubles, so that a NaN
differs from itself. -/
def same : Number → Number → Bool
  | int a, int b => a == b
  | float a, float b => a == b
  | _, _ => false

instance : BEq Number := ⟨same⟩

def toFloat : Number → Float
  | int n => n.toFloat
  | float x => x

def isInt : Number → Bool
  | int _ => true
  | float _ => false

def text : Number → String
  | int n => toString n.toInt
  | float x => FloatLayout.term.text x

def compareFloats? (x y : Float) : Option Ordering :=
  if x < y then some .lt
  else if x == y then some .eq
  else if y < x then some .gt
  else none

/-- The order of two values: exact between integers, as doubles otherwise. -/
def compare? : Number → Number → Option Ordering
  | int a, int b => some (compare a.toInt b.toInt)
  | a, b => compareFloats? a.toFloat b.toFloat

end Number

def Comparison.holds : Comparison → Ordering → Bool
  | equal, o => o == .eq
  | notEqual, o => o != .eq
  | less, o => o == .lt
  | greater, o => o == .gt
  | lessOrEqual, o => o != .gt
  | greaterOrEqual, o => o != .lt

def int64? (n : Int) : Option Int64 :=
  if isInt64 n then some (Int64.ofInt n) else none

namespace Arith

def integer? : Arith → Int → Int → Option Int64
  | add, x, y => int64? (x + y)
  | sub, x, y => int64? (x - y)
  | mul, x, y => int64? (x * y)
  | div, x, y => if x % y = 0 then int64? (x / y) else none

def onFloats : Arith → Float → Float → Float
  | add, x, y => x + y
  | sub, x, y => x - y
  | mul, x, y => x * y
  | div, x, y => x / y

def compute (op : Arith) : Number → Number → Option Number
  | .int x, .int y =>
    if op = .div ∧ y = 0 then none
    else match op.integer? x.toInt y.toInt with
      | some n => some (.int n)
      | none => some (.float (op.onFloats x.toFloat y.toFloat))
  | a, b =>
    if op = .div && b.toFloat == 0 then none
    else some (.float (op.onFloats a.toFloat b.toFloat))

end Arith

end Argumentation
