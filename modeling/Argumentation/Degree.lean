import Argumentation.Decimal.Layout

namespace Argumentation

structure Degree where
  bits : Nat
  pos : 0 < bits
  le_one : bits ≤ 0x3FF0000000000000
  deriving DecidableEq

namespace Degree

def one : Degree :=
  ⟨0x3FF0000000000000, by decide, Nat.le_refl _⟩

instance : Inhabited Degree := ⟨one⟩

instance : LE Degree := ⟨fun a b ↦ a.bits ≤ b.bits⟩

instance : LT Degree := ⟨fun a b ↦ a.bits < b.bits⟩

instance (a b : Degree) : Decidable (a ≤ b) := Nat.decLe a.bits b.bits

instance (a b : Degree) : Decidable (a < b) := Nat.decLt a.bits b.bits

instance : Min Degree := ⟨fun a b ↦ if a ≤ b then a else b⟩

def ofBits? (bits : Nat) : Option Degree :=
  if h : 0 < bits ∧ bits ≤ 0x3FF0000000000000 then some ⟨bits, h.1, h.2⟩ else none

def ofFloat? (x : Float) : Option Degree :=
  ofBits? x.toBits.toNat

def toFloat (d : Degree) : Float :=
  Float.ofBits (UInt64.ofNat d.bits)

def text (d : Degree) : String :=
  FloatLayout.degree.bitsText d.bits

def roundedText (d : Degree) : String :=
  FloatLayout.fixedText 2 (.ofBits d.bits)

end Degree

abbrev Threshold := Nat

/-- A double as a lower bound. Nothing is less than a NaN, and no degree is less than a double that
is not positive. -/
def Threshold.ofFloat (x : Float) : Threshold :=
  let bits := x.toBits.toNat
  if bits ≤ Decimal.infinityBits then bits else 0

def Degree.meets (d : Degree) (m : Threshold) : Bool :=
  m ≤ d.bits

end Argumentation
