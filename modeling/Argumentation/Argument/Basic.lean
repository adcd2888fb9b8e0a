import Argumentation.Rule.Basic
import Argumentation.Substitution.Basic

namespace Argumentation

abbrev ArgumentId := Nat

structure Argument where
  id : ArgumentId
  rule : Rule
  substitution : Substitution
  subs : List Argument
  strength : Degree
  depth : Nat

namespace Argument

def claim (a : Argument) : Term :=
  a.substitution.apply a.rule.consequent

def ruleName? (a : Argument) : Option Term :=
  a.rule.name.map a.substitution.apply

def isMain (a : Argument) : Bool :=
  a.depth = 0

def isAtomic (a : Argument) : Bool :=
  a.subs.isEmpty

def isFactual (a : Argument) : Bool :=
  a.isAtomic && a.strength = .one

def joinLevels {α : Type} : List (List α) → List (List α) → List (List α)
  | [], m => m
  | l, [] => l
  | x :: l, y :: m => (x ++ y) :: joinLevels l m

mutual

def levels : Argument → List (List Argument)
  | a@⟨_, _, _, subs, _, _⟩ => [a] :: levelsAll subs

def levelsAll : List Argument → List (List Argument)
  | [] => []
  | a :: as => joinLevels (levels a) (levelsAll as)

end

def subtree (a : Argument) : List Argument :=
  a.levels.flatten

mutual

/-- Whether two arguments apply the same rules to the same claims, up to variables. -/
def isSimilar : Argument → Argument → Bool
  | a@⟨_, _, _, subs, _, _⟩, b =>
    a.id == b.id ||
      (a.rule.id == b.rule.id && subs.length == b.subs.length && a.claim.isVariant b.claim &&
        areSimilar subs b.subs)

def areSimilar : List Argument → List Argument → Bool
  | a :: as, b :: bs => isSimilar a b && areSimilar as bs
  | _, _ => true

end

def idText (id : ArgumentId) : String :=
  "A" ++ toString id

def text (a : Argument) : String :=
  let subs := if a.isAtomic then "" else " <= " ++ Term.commaList (a.subs.map fun x ↦ idText x.id)
  idText a.id ++ ": " ++ a.claim.text ++ " [" ++ a.strength.text ++ "]" ++ subs

end Argument

end Argumentation
