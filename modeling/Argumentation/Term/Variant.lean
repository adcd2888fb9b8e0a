import Argumentation.Term.Basic

namespace Argumentation

abbrev Pairing := List (Variable × Variable)

namespace Pairing

def image? (p : Pairing) (v : Variable) : Option Variable :=
  (p.find? (·.1 == v)).map (·.2)

def preimage? (p : Pairing) (w : Variable) : Option Variable :=
  (p.find? (·.2 == w)).map (·.1)

def pair (p : Pairing) (v w : Variable) : Option Pairing :=
  match p.image? v, p.preimage? w with
  | some w', some v' => if w' = w ∧ v' = v then some p else none
  | none, none => some ((v, w) :: p)
  | _, _ => none

end Pairing

namespace Term

mutual

def pairWith : Term → Term → Pairing → Option Pairing
  | var v, var w, p => p.pair v w
  | num m, num n, p => if m.same n then some p else none
  | app f xs, app g ys, p => if f = g then pairAll xs ys p else none
  | _, _, _ => none

def pairAll : List Term → List Term → Pairing → Option Pairing
  | [], [], p => some p
  | x :: xs, y :: ys, p => (pairWith x y p).bind (pairAll xs ys)
  | _, _, _ => none

end

/-- Equality up to a one-to-one renaming of variables. -/
def isVariant (t u : Term) : Bool :=
  (pairWith t u []).isSome

end Term

end Argumentation
