import Argumentation.RuleStore.Basic

namespace Argumentation

def Rule.dependences (r : Rule) : List (Predicate × Predicate) :=
  match r.consequent.predicate? with
  | some head => (r.antecedent.filterMap Term.predicate?).map fun p ↦ (p, head)
  | none => []

namespace Recursion

def edges (rules : List Rule) : List (Predicate × Predicate) :=
  (rules.filter fun r ↦ !r.origin.isHook).flatMap Rule.dependences

def successors (es : List (Predicate × Predicate)) (seen : List Predicate) : List Predicate :=
  ((es.filter fun e ↦ seen.contains e.1).map (·.2)).eraseDups

def closure (es : List (Predicate × Predicate)) : (n : Nat) → List Predicate → List Predicate
  | 0, seen => seen
  | n + 1, seen =>
    match (successors es seen).filter fun p ↦ !seen.contains p with
    | [] => seen
    | new => closure es n (seen ++ new)

/-- What is reached from a predicate in one step or more. Each round that adds anything adds the
end of an edge, so there are no more rounds than edges. -/
def reached (es : List (Predicate × Predicate)) (p : Predicate) : List Predicate :=
  closure es es.length (successors es [p])

def group (es : List (Predicate × Predicate)) (p : Predicate) : List Predicate :=
  ((reached es p).filter fun q ↦ (reached es q).contains p).mergeSort Predicate.precedes

/-- The groups of mutually dependent predicates, each named by its first member; a predicate that
does not depend on itself is in none. -/
def groups (rules : List Rule) : List (List Predicate) :=
  let es := edges rules
  let starts := ((es.map (·.1)).eraseDups).mergeSort Predicate.precedes
  (starts.map fun p ↦ (p, group es p)).filterMap fun (p, g) ↦
    if g.head? = some p then some g else none

end Recursion

end Argumentation
