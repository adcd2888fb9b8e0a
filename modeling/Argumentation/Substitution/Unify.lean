import Argumentation.Substitution.Basic

namespace Argumentation.Substitution

def bindVariable (s : Substitution) (v : Variable) (t : Term) : Substitution :=
  if (s.apply t).mentions v then s.ban v else s.add v t

/-- Unification of terms nested at most `n` deep under the substitution. Arguments are unified
from left to right, and an inconsistent substitution stays as it is. -/
def unifyWithin : (n : Nat) → Term → Term → Substitution → Substitution
  | 0, _, _, s => s.clash
  | n + 1, l, r, s =>
    if !s.isConsistent then s
    else match s.walk l, s.walk r with
      | .var v, .var w => if v = w then s else s.bindVariable v (.var w)
      | .var v, t => s.bindVariable v t
      | t, .var v => s.bindVariable v t
      | .num a, .num b => if a.same b then s else s.clash
      | .app f xs, .app g ys =>
        if f = g ∧ xs.length = ys.length then
          (xs.zip ys).foldl (fun u (x, y) ↦ unifyWithin n x y u) s
        else s.clash
      | _, _ => s.clash

/-- A depth that unification does not pass if it ends at all: deeper down, a pair of subterms would
come back under the same bindings. -/
def unifyDepth (l r : Term) (s : Substitution) : Nat :=
  let n := l.size + r.size + s.bindings.size + 2
  n * n * n

/-- The substitution extended so that both terms become equal; it is inconsistent if none is. -/
def unify (s : Substitution) (l r : Term) : Substitution :=
  unifyWithin (unifyDepth l r s) l r s

end Argumentation.Substitution

namespace Argumentation.Term

def unifies (l r : Term) : Bool :=
  (Substitution.empty.unify l r).isConsistent

end Argumentation.Term
