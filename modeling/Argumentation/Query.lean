import Argumentation.Json.Basic
import Argumentation.Settings

namespace Argumentation

structure Answer where
  expression : List Term
  undefeated : Bool
  arguments : List Argument

structure Outcome where
  answers : List Answer
  proof : Proof
  semantics : Semantics

def Outcome.isAccepted (o : Outcome) : Bool :=
  o.answers.any (·.undefeated)

def Flow.visit {α β : Type} (f : α → Search β) : Flow α → Search (List β)
  | .done => return []
  | .yield a rest => do
    let b ← f a
    return b :: (← visit f (rest ()))
  | .takeVariables n next => do
    let s ← get
    let base := s.supply.freeVariable
    set { s with supply := { s.supply with freeVariable := base + n } }
    visit f (next base)
  | .takeArgument next => do
    let s ← get
    let id := s.supply.freeArgument
    set { s with supply := { s.supply with freeArgument := id + 1 } }
    visit f (next id)

structure Query where
  expression : List Term
  store : RuleStore
  settings : Settings

namespace Query

def theory (q : Query) : Theory where
  store := q.store
  valuation := q.settings.valuation
  maxDepth := q.settings.maxDepth

def arena (q : Query) : Arena where
  theory := q.theory
  restricted := q.settings.restricted

/-- Whether every argument withstands; all of them are put to the test. -/
def withstand (q : Query) (moves : Nat) : List Argument → Search Bool
  | [] => return true
  | a :: as => do
    let first := (← q.settings.semantics.evaluate q.arena moves a).isSome
    let rest ← q.withstand moves as
    return first && rest

def answer (q : Query) (moves : Nat) (l : ArgumentList) : Search Answer := do
  let undefeated ← q.withstand moves l.arguments
  return {
    expression := q.expression.map l.substitution.apply
    undefeated
    arguments := l.arguments }

def search (q : Query) (moves : Nat) : Search (List Answer) :=
  (q.theory.argumentLists (.ofFloat q.settings.minStrength) q.expression).visit (q.answer moves)

def session (next : Nat) : Session where
  proof := .empty
  supply := { freeVariable := next, freeArgument := 1 }

def run (q : Query) (moves next : Nat) : Option Outcome :=
  (q.search moves (session next)).map fun (answers, s) ↦
    { answers, proof := s.proof, semantics := q.settings.semantics }

end Query

namespace Outcome

def answerReport (a : Answer) : Json :=
  .record [("expression", .string (Term.conjunctionText a.expression)),
    ("undefeated", .bool a.undefeated),
    ("arguments", .ofList (fun (x : Argument) ↦ .ofNat x.id) a.arguments)]

def argumentReport (write : WriteFloat) (p : Proof) (a : Argument) : Json :=
  let ids (as : List Argument) : Json := .ofList (fun x ↦ .ofNat x.id) as
  .record [("id", .ofNat a.id), ("claim", .string a.claim.text),
    ("strength", write a.strength.toFloat), ("status", .string (p.status a).text),
    ("rule", .string a.rule.text), ("sub_arguments", ids a.subs),
    ("attackers", ids ((p.attackersOf a).successful.map (·.attacker))),
    ("defenders", ids (p.defendersFrom a))]

def report (write : WriteFloat) (o : Outcome) : Json :=
  .record [("semantics", .string o.semantics.text), ("results", .ofList answerReport o.answers),
    ("proof", .ofList (argumentReport write o.proof) o.proof.arguments)]

end Outcome

end Argumentation
