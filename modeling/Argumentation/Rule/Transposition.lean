import Argumentation.Rule.Basic

namespace Argumentation.Rule

def contrapositive? (r : Rule) (i : Nat) : Option Rule := do
  let head ← r.antecedent[i]? >>= Term.negation?
  let negated ← r.consequent.negation?
  return plain head (negated :: r.antecedent.eraseIdx i) .one

/-- One contrapositive for each literal that has a contrary, if the rule is strict and no fact. -/
def contrapositives (r : Rule) : List Rule :=
  if r.isStrict && !r.isFact then (List.range r.antecedent.length).filterMap r.contrapositive?
  else []

end Argumentation.Rule
