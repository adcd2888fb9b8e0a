import Argumentation.Operator
import Argumentation.Variable

namespace Argumentation

inductive Symbol where
  | name (functor : String)
  | op (operator : Operator)
  deriving DecidableEq, Repr

inductive Term where
  | var (v : Variable)
  | num (n : Number)
  | app (head : Symbol) (args : List Term)
  deriving Inhabited

structure Predicate where
  functor : String
  arity : Nat
  deriving DecidableEq, Repr

namespace Predicate

def text (p : Predicate) : String :=
  p.functor ++ "/" ++ toString p.arity

def precedes (p q : Predicate) : Bool :=
  p.functor < q.functor || (p.functor == q.functor && p.arity ≤ q.arity)

end Predicate

namespace Symbol

def text : Symbol → String
  | name functor => functor
  | op operator => operator.symbol

end Symbol

namespace Term

abbrev const (functor : String) : Term :=
  app (.name functor) []

mutual

/-- Equality of terms; it is the one of `Number.same` on numbers. -/
def same : Term → Term → Bool
  | var v, var w => v == w
  | num m, num n => m.same n
  | app f xs, app g ys => f == g && sameAll xs ys
  | _, _ => false

def sameAll : List Term → List Term → Bool
  | [], [] => true
  | x :: xs, y :: ys => same x y && sameAll xs ys
  | _, _ => false

end

instance : BEq Term := ⟨same⟩

def args : Term → List Term
  | app _ xs => xs
  | _ => []

def functor? : Term → Option String
  | app f _ => some f.text
  | _ => none

def predicate? : Term → Option Predicate
  | app (.name f) xs => some ⟨f, xs.length⟩
  | _ => none

def isVariable : Term → Bool
  | var _ => true
  | _ => false

def isLiteral : Term → Bool
  | app (.name _) _ => true
  | _ => false

/-- An arithmetic term read as an ordinary literal, the form in which rules can conclude it. -/
def arithLiteral? : Term → Option Term
  | app (.op (.arith op)) xs => some (app (.name (Operator.arith op).symbol) xs)
  | _ => none

mutual

def size : Term → Nat
  | var _ => 1
  | num _ => 1
  | app _ xs => sizeAll xs + 1

def sizeAll : List Term → Nat
  | [] => 0
  | x :: xs => size x + sizeAll xs

end

mutual

def occurrences : Term → List Variable
  | var v => [v]
  | num _ => []
  | app _ xs => occurrencesAll xs

def occurrencesAll : List Term → List Variable
  | [] => []
  | x :: xs => occurrences x ++ occurrencesAll xs

end

def vars (t : Term) : List Variable :=
  t.occurrences.eraseDups

def isGround (t : Term) : Bool :=
  t.occurrences.isEmpty

def mentions (t : Term) (v : Variable) : Bool :=
  t.occurrences.contains v

mutual

def rename (f : Variable → Variable) : Term → Term
  | var v => var (f v)
  | num n => num n
  | app g xs => app g (renameAll f xs)

def renameAll (f : Variable → Variable) : List Term → List Term
  | [] => []
  | x :: xs => rename f x :: renameAll f xs

end

/-- An application whose arguments are in place; an arithmetic one of two numbers is its value. -/
def fold : Symbol → List Term → Term
  | .op (.arith op), [num a, num b] =>
    match op.compute a b with
    | some n => num n
    | none => app (.op (.arith op)) [num a, num b]
  | f, xs => app f xs

mutual

def bind (f : Variable → Term) : Term → Term
  | var v => f v
  | num n => num n
  | app g xs => fold g (bindAll f xs)

def bindAll (f : Variable → Term) : List Term → List Term
  | [] => []
  | x :: xs => bind f x :: bindAll f xs

end

mutual

def evaluate : Term → Option Number
  | num n => some n
  | app (.op (.arith op)) xs =>
    match evaluateAll xs with
    | some [a, b] => op.compute a b
    | _ => none
  | _ => none

def evaluateAll : List Term → Option (List Number)
  | [] => some []
  | x :: xs =>
    match evaluate x, evaluateAll xs with
    | some n, some ns => some (n :: ns)
    | _, _ => none

end

def negateFunctor (functor : String) : String :=
  match functor.toList with
  | '~' :: positive => String.ofList positive
  | cs => String.ofList ('~' :: cs)

def isNegated : Term → Bool
  | app (.name f) _ => f.toList.head? == some '~'
  | _ => false

def negation? : Term → Option Term
  | app (.name f) xs => some (app (.name (negateFunctor f)) xs)
  | _ => none

end Term

end Argumentation
