import Argumentation.Degree
import Argumentation.Error
import Argumentation.Term.Text
import Argumentation.Term.Variant

namespace Argumentation

abbrev RuleId := Nat

inductive Origin where
  | user
  | hook (source : RuleId)
  | transposition (source : RuleId)
  deriving DecidableEq, Repr

def Origin.source? : Origin → Option RuleId
  | user => none
  | hook source => some source
  | transposition source => some source

def Origin.isTransposition : Origin → Bool
  | transposition _ => true
  | _ => false

def Origin.isHook : Origin → Bool
  | hook _ => true
  | _ => false

structure Rule where
  id : RuleId
  name : Option Term
  consequent : Term
  antecedent : List Term
  degree : Degree
  origin : Origin
  autoNamed : Bool
  caption : Option String
  description : Option String

namespace Rule

def detached : RuleId := 0

def plain (consequent : Term) (antecedent : List Term) (degree : Degree) : Rule where
  id := detached
  name := none
  consequent
  antecedent
  degree
  origin := .user
  autoNamed := false
  caption := none
  description := none

/-- A rule with a checked consequent and degree. An arithmetic consequent is kept as an ordinary
literal. -/
def make (consequent : Term) (antecedent : List Term) (degree : Float) : Except TermError Rule :=
  let head := consequent.arithLiteral?.getD consequent
  if head.isLiteral then
    match Degree.ofFloat? degree with
    | some d => .ok (plain head antecedent d)
    | none => .error (.invalidDegree degree)
  else .error (.invalidConsequent head.text)

def fact (consequent : Term) : Except TermError Rule :=
  make consequent [] 1

def strict (consequent : Term) (antecedent : List Term) : Except TermError Rule :=
  make consequent antecedent 1

def defeasible (consequent : Term) (antecedent : List Term) (degree : Float) :
    Except TermError Rule :=
  if 1 ≤ degree then .error (.invalidDegree degree) else make consequent antecedent degree

def withName (r : Rule) (name : Term) : Rule :=
  { r with name := some name, autoNamed := false }

def withAutoName (r : Rule) (name : Term) : Rule :=
  { r with name := some name, autoNamed := true }

def isStrict (r : Rule) : Bool :=
  r.degree = .one

def isDefeasible (r : Rule) : Bool :=
  !r.isStrict

def isFact (r : Rule) : Bool :=
  r.antecedent.isEmpty

def isGenerated (r : Rule) : Bool :=
  r.origin != .user

def vars (r : Rule) : List Variable :=
  (r.consequent.occurrences ++ Term.occurrencesAll r.antecedent).eraseDups

def allVars (r : Rule) : List Variable :=
  (r.consequent.occurrences ++ Term.occurrencesAll r.antecedent ++
    Term.occurrencesAll r.name.toList).eraseDups

def rename (f : Variable → Variable) (r : Rule) : Rule :=
  { r with
    consequent := r.consequent.rename f
    antecedent := Term.renameAll f r.antecedent
    name := r.name.map (Term.rename f) }

/-- The rule over variables of its own, numbered from `base` on in the order of their first
occurrences; it takes as many numbers as the rule has variables. -/
def renameApart (r : Rule) (base : Nat) : Rule :=
  r.rename fun v ↦ ⟨v.name, base + r.allVars.idxOf v⟩

/-- Whether one renaming of variables makes consequents and antecedents equal. -/
def isVariant (r s : Rule) : Bool :=
  (Term.pairAll (r.consequent :: r.antecedent) (s.consequent :: s.antecedent) []).isSome

def idText (id : RuleId) : String :=
  "#" ++ toString id

def text (r : Rule) : String :=
  let arrow := if r.isStrict then " <-" else " <~" ++ r.degree.text
  let body := if r.isFact then "" else " " ++ Term.conjunctionText r.antecedent
  r.consequent.text ++ (if r.isFact && r.isStrict then "" else arrow) ++ body ++ "."

end Rule

end Argumentation
