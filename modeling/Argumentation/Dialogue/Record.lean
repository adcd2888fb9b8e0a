import Argumentation.Argument.Attack

namespace Argumentation

inductive Status where
  | unset
  | undefeated
  | defeated
  deriving DecidableEq, Repr

def Status.text : Status → String
  | unset => "unset"
  | undefeated => "undefeated"
  | defeated => "defeated"

structure AttackerEntry where
  attacker : Argument
  attack : Attack

/-- The arguments for contraries of an argument's claims and rule names, by success. -/
structure Attackers where
  successful : List AttackerEntry
  unsuccessful : List Argument

def Attackers.none : Attackers :=
  ⟨[], []⟩

structure Proof where
  arguments : List Argument
  statuses : List (ArgumentId × Status)
  attackers : List (ArgumentId × Attackers)
  defenders : List (ArgumentId × List Argument)

namespace Proof

def empty : Proof :=
  ⟨[], [], [], []⟩

def contains (p : Proof) (a : Argument) : Bool :=
  p.arguments.any (·.id == a.id)

def status (p : Proof) (a : Argument) : Status :=
  (p.statuses.lookup a.id).getD .unset

def attackersOf (p : Proof) (a : Argument) : Attackers :=
  (p.attackers.lookup a.id).getD .none

def defendersFrom (p : Proof) (attacker : Argument) : List Argument :=
  (p.defenders.lookup attacker.id).getD []

def record (p : Proof) (a : Argument) : Proof :=
  a.subtree.foldl
    (fun acc node ↦
      if acc.contains node then acc else { acc with arguments := acc.arguments ++ [node] })
    p

def setStatus (p : Proof) (a : Argument) (status : Status) : Proof :=
  { p with statuses := (a.id, status) :: p.statuses.filter (·.1 != a.id) }

def addDefender (p : Proof) (attacker defender : Argument) : Proof :=
  let known := p.defendersFrom attacker
  if known.any (·.id == defender.id) then p
  else
    { p with
      defenders :=
        (attacker.id, known ++ [defender]) :: p.defenders.filter (·.1 != attacker.id) }

end Proof

end Argumentation
