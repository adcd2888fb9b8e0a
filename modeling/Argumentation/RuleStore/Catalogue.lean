import Argumentation.Rule.Basic

namespace Argumentation

def Rule.predicates (r : Rule) : List Predicate :=
  (r.consequent :: r.antecedent).filterMap Term.predicate?

abbrev Catalogue := List (Predicate × Nat)

namespace Catalogue

def count (c : Catalogue) (p : Predicate) : Nat :=
  (c.lookup p).getD 0

def contains (c : Catalogue) (p : Predicate) : Bool :=
  (c.lookup p).isSome

def enter (p : Predicate) : Catalogue → Catalogue
  | [] => [(p, 1)]
  | (q, n) :: c => if q = p then (q, n + 1) :: c else (q, n) :: enter p c

def strike (p : Predicate) : Catalogue → Catalogue
  | [] => []
  | (q, n) :: c => if q = p then (if n ≤ 1 then c else (q, n - 1) :: c) else (q, n) :: strike p c

def record (c : Catalogue) (r : Rule) : Catalogue :=
  r.predicates.foldl (fun acc p ↦ enter p acc) c

def forget (c : Catalogue) (r : Rule) : Catalogue :=
  r.predicates.foldl (fun acc p ↦ strike p acc) c

def predicates (c : Catalogue) : List Predicate :=
  (c.map (·.1)).mergeSort Predicate.precedes

def arities (c : Catalogue) (functor : String) : List Nat :=
  (c.predicates.filter (·.functor == functor)).map (·.arity)

end Catalogue

end Argumentation
