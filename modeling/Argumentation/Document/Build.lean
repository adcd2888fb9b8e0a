import Argumentation.Document.Basic
import Argumentation.Rule.Basic
import Argumentation.Term.Construction
import Argumentation.Text.Character

namespace Argumentation

def isVariableName (s : String) : Bool :=
  s.toList.head?.any fun c ↦ Text.isUppercase c || c == '_'

/-- Construction in a scope of variables, which keeps the variables also of what fails. -/
abbrev Build (α : Type) := ExceptT TermError (StateM Scope) α

namespace Build

def mention (name : String) : Build Variable :=
  modifyGet fun scope ↦ scope.mention name

/-- Construction in a scope of its own whose variables are numbered from `next` on, and the next
number after them. -/
def inOwnScope {α : Type} (b : Build α) (next : Nat) : Except TermError α × Nat :=
  let (result, scope) := b.run (.startingAt next)
  (result, scope.next)

end Build

namespace TermSpec

mutual

def build : TermSpec → Build Term
  | int n => return .num (.int n)
  | float x => return .num (.float x)
  | name s => do
    if isVariableName s then return .var (← Build.mention s) else Term.constant s
  | var s => return .var (← Build.mention s)
  | const s => Term.constant s
  | compound functor args => do
    let terms ← buildAll args
    Term.ofFunctor functor terms

def buildAll : List TermSpec → Build (List Term)
  | [] => return []
  | t :: ts => do
    let term ← build t
    return term :: (← buildAll ts)

end

end TermSpec

namespace RuleSpec

def build (r : RuleSpec) : Build Rule := do
  let head ← r.head.build
  let body ← TermSpec.buildAll r.body
  let rule ← Rule.make head body r.degree
  let named ← match r.name with
    | some name => rule.withName <$> name.build
    | none => pure rule
  return { named with caption := r.caption, description := r.description }

end RuleSpec

def QuerySpec.build : QuerySpec → Build (List Term)
  | single t => return [← t.build]
  | conjunction ts => TermSpec.buildAll ts

namespace RuleDocument

def buildRulesFrom (index next : Nat) : List RuleSpec → Except Error (List Rule × Nat)
  | [] => .ok ([], next)
  | r :: rs =>
    match r.build.inOwnScope next with
    | (.error e, _) => .error (.documentRule index (.term e))
    | (.ok rule, next) => (buildRulesFrom (index + 1) next rs).map fun (rules, next) ↦
      (rule :: rules, next)

def buildRules (d : RuleDocument) (next : Nat) : Except Error (List Rule × Nat) :=
  buildRulesFrom 0 next d.rules

def buildQueriesFrom (next : Nat) : List QuerySpec → Except Error (List (List Term) × Nat)
  | [] => .ok ([], next)
  | q :: qs =>
    match q.build.inOwnScope next with
    | (.error e, _) => .error (.term e)
    | (.ok terms, next) => (buildQueriesFrom next qs).map fun (queries, next) ↦
      (terms :: queries, next)

def buildQueries (d : RuleDocument) (next : Nat) : Except Error (List (List Term) × Nat) :=
  buildQueriesFrom next d.queries

end RuleDocument

end Argumentation
