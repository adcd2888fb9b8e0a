import Argumentation.Document.Build
import Argumentation.Query
import Argumentation.RuleStore.Recursion
import Argumentation.RuleStore.Update

namespace Argumentation

structure Engine where
  settings : Settings
  store : RuleStore

namespace Engine

def default : Engine :=
  ⟨.default, .empty false⟩

def make (settings : Settings) : Except Error Engine :=
  match settings.check with
  | .ok settings => .ok ⟨settings, .empty settings.transposing⟩
  | .error e => .error (.settings e)

def setSettings (e : Engine) (settings : Settings) : Except Error Engine :=
  match settings.check with
  | .ok settings => .ok ⟨settings, e.store.setTransposing settings.transposing⟩
  | .error err => .error (.settings err)

def add (e : Engine) (r : Rule) : Except Error (RuleId × Engine) :=
  match e.store.add r with
  | .ok (id, store) => .ok (id, { e with store })
  | .error err => .error (.store err)

def remove (e : Engine) (id : RuleId) : Except Error (Rule × Engine) :=
  match e.store.remove id with
  | .ok (r, store) => .ok (r, { e with store })
  | .error err => .error (.store err)

def addAll (e : Engine) : List Rule → Except Error Unit × Engine
  | [] => (.ok (), e)
  | r :: rs =>
    match e.add r with
    | .ok (_, e) => e.addAll rs
    | .error err => (.error err, e)

/-- The rules of a document added, their variables numbered from `next` on: how many there were,
and the next number after them. All rules are built before the first is added. -/
def load (e : Engine) (d : RuleDocument) (next : Nat) : Except Error Nat × Engine × Nat :=
  match d.buildRules next with
  | .error err => (.error err, e, next)
  | .ok (rules, next) =>
    let (result, e) := e.addAll rules
    (result.map fun _ ↦ rules.length, e, next)

def ofDocument (settings : Settings) (d : RuleDocument) : Except Error (Engine × Nat) := do
  let e ← make settings
  match e.load d 1 with
  | (.ok _, e, next) => return (e, next)
  | (.error err, _, _) => throw err

def toQuery (e : Engine) (expression : List Term) : Query :=
  ⟨expression, e.store, e.settings⟩

def info (e : Engine) : String :=
  let boolText (b : Bool) : String := if b then "true" else "false"
  let groups := Recursion.groups e.store.rules
  let groupLine (g : List Predicate) : String := "\n  " ++ Term.commaList (g.map Predicate.text)
  e.store.statistics ++ "\nsemantics: " ++ e.settings.semantics.text ++ ", valuation: " ++
    e.settings.valuation.text ++ ", transposition: " ++ boolText e.settings.transposing ++
    ", restricted rebutting: " ++ boolText e.settings.restricted ++ "\n" ++
    if groups.isEmpty then "no recursive predicates"
    else "recursive predicate groups:" ++ String.join (groups.map groupLine)

end Engine

end Argumentation
