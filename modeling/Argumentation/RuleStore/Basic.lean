import Argumentation.RuleStore.Catalogue
import Argumentation.Substitution.Unify

namespace Argumentation

/-- Rule ids under keys, in the order of their entry; no key is kept without an id. -/
abbrev RuleIndex (κ : Type) := List (κ × List RuleId)

namespace RuleIndex

variable {κ : Type} [DecidableEq κ]

def ids (ix : RuleIndex κ) (k : κ) : List RuleId :=
  (ix.lookup k).getD []

def push (k : κ) (id : RuleId) : RuleIndex κ → RuleIndex κ
  | [] => [(k, [id])]
  | (k', ids) :: ix => if k' = k then (k', ids ++ [id]) :: ix else (k', ids) :: push k id ix

def drop (k : κ) (id : RuleId) (ix : RuleIndex κ) : RuleIndex κ :=
  ix.filterMap fun (k', ids) ↦
    let rest := if k' = k then ids.filter (· != id) else ids
    if rest.isEmpty then none else some (k', rest)

def dropAll (gone : List RuleId) (ix : RuleIndex κ) : RuleIndex κ :=
  ix.filterMap fun (k, ids) ↦
    let rest := ids.filter fun id ↦ !gone.contains id
    if rest.isEmpty then none else some (k, rest)

def erase (k : κ) (ix : RuleIndex κ) : RuleIndex κ :=
  ix.filter (·.1 != k)

end RuleIndex

structure RuleStore where
  rules : List Rule
  conclusions : RuleIndex (Predicate × Nat)
  names : RuleIndex Predicate
  generated : RuleIndex RuleId
  catalogue : Catalogue
  transposing : Bool
  nextId : RuleId
  nextName : Nat

namespace RuleStore

def empty (transposing : Bool) : RuleStore where
  rules := []
  conclusions := []
  names := []
  generated := []
  catalogue := []
  transposing
  nextId := 1
  nextName := 1

def rule? (s : RuleStore) (id : RuleId) : Option Rule :=
  s.rules.find? (·.id == id)

def userRules (s : RuleStore) : List Rule :=
  s.rules.filter (!·.isGenerated)

def similar (s : RuleStore) (r : Rule) : List Rule :=
  match r.consequent.predicate? with
  | some p => (s.conclusions.ids (p, r.antecedent.length)).filterMap s.rule?
  | none => []

def find? (s : RuleStore) (r : Rule) (accept : Rule → Bool) : Option Rule :=
  (s.similar r).find? fun r' ↦ accept r' && r'.isVariant r

def contains (s : RuleStore) (r : Rule) : Bool :=
  (s.find? r fun _ ↦ true).isSome

def named (s : RuleStore) (name : Term) : List RuleId :=
  match name.predicate? with
  | some p => (s.names.ids p).filter fun id ↦
    ((s.rule? id).bind (·.name)).any fun n ↦ n.unifies name
  | none => []

def isRuleName (s : RuleStore) (name : Term) : Bool :=
  !(s.named name).isEmpty

def ruleNamed? (s : RuleStore) (name : Term) : Option Rule :=
  (s.named name).head?.bind s.rule?

def generatedFrom (s : RuleStore) (id : RuleId) : List RuleId :=
  s.generated.ids id

/-- The rules that conclude a goal's predicate, those with shorter antecedents first and older ones
before younger ones. -/
def candidates (s : RuleStore) (goal : Term) : List Rule :=
  match goal.predicate? with
  | some p =>
    let groups := s.conclusions.filter (·.1.1 == p)
    let sorted := groups.mergeSort fun a b ↦ a.1.2 ≤ b.1.2
    (sorted.flatMap (·.2)).filterMap s.rule?
  | none => []

def rulesFor (s : RuleStore) (p : Predicate) (bodyLength : Nat) : Except StoreError (List Rule) :=
  match s.conclusions.lookup (p, bodyLength) with
  | some ids => .ok (ids.filterMap s.rule?)
  | none => .error (.noRulesFor p.functor p.arity bodyLength)

def strictUserRules (s : RuleStore) : List Rule :=
  s.userRules.filter fun r ↦ r.isStrict && !r.isFact

def statistics (s : RuleStore) : String :=
  let count (p : Rule → Bool) := toString (s.rules.countP p)
  toString s.rules.length ++ " rules (" ++ count (!·.isGenerated) ++ " user, " ++
    count (·.origin.isHook) ++ " hooks, " ++ count (·.origin.isTransposition) ++
    " transpositions), " ++ toString s.catalogue.length ++ " predicates"

end RuleStore

end Argumentation
