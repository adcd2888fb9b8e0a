import Argumentation.Argument.Construction
import Argumentation.Dialogue.Record

namespace Argumentation

/-- What a dialogue is about, and whether a defeasible rule may rebut a strict one. -/
structure Arena where
  theory : Theory
  restricted : Bool

structure Dispute where
  pro : List Argument
  opp : List Argument

namespace Dispute

def seeded (a : Argument) : Dispute :=
  ⟨[a], []⟩

def proContains (d : Dispute) (a : Argument) : Bool :=
  d.pro.any (·.isSimilar a)

def oppContains (d : Dispute) (a : Argument) : Bool :=
  d.opp.any (·.isSimilar a)

def exchange (d : Dispute) (attacker defender : Argument) : Dispute :=
  ⟨d.pro ++ [defender], d.opp ++ [attacker]⟩

def concede (d : Dispute) (attacker : Argument) : Dispute :=
  { d with opp := d.opp ++ [attacker] }

end Dispute

structure Session where
  proof : Proof
  supply : Supply

/-- The denials of a tree of arguments: for each node the contrary of its claim, unless the node is
strict, and the contrary of the name of its rule, if the rule is defeasible. -/
def Argument.denials (a : Argument) : List (Term × Attack) :=
  a.subtree.flatMap fun node ↦
    let ofClaim := if node.strength = .one then none else node.claim.negation?
    let ofName := if node.rule.isDefeasible then node.ruleName?.bind Term.negation? else none
    (ofClaim.map (·, ⟨.rebut, node⟩)).toList ++ (ofName.map (·, ⟨.undercut, node⟩)).toList

namespace Arena

def succeeds (arena : Arena) (a : Argument) (attack : Attack) : Bool :=
  match attack.kind with
  | .rebut => a.rebuts arena.restricted attack.target
  | .undercut => a.undercuts attack.target

/-- A candidate entered among the attackers; of similar successful ones only the first counts. -/
def enter (arena : Arena) (attack : Attack) (found : Attackers) (a : Argument) : Attackers :=
  if !arena.succeeds a attack then { found with unsuccessful := found.unsuccessful ++ [a] }
  else if found.successful.any fun e ↦ e.attacker.isSimilar a then found
  else { found with successful := found.successful ++ [⟨a, attack⟩] }

def findAttackers (arena : Arena) (a : Argument) (s : Supply) : Attackers × Supply :=
  a.denials.foldl
    (fun (found, s) (goal, attack) ↦
      let (candidates, s') := (arena.theory.arguments 0 goal).toList s
      (candidates.foldl (arena.enter attack) found, s'))
    (.none, s)

end Arena

/-- A search that changes the session and may run out of moves before it has an answer. -/
abbrev Search := StateT Session Option

namespace Search

def outOfMoves {α : Type} : Search α :=
  fun _ ↦ none

def updateProof (f : Proof → Proof) : Search Unit :=
  modify fun s ↦ { s with proof := f s.proof }

def setStatus (a : Argument) (status : Status) : Search Unit :=
  updateProof (·.setStatus a status)

def addDefender (attacker defender : Argument) : Search Unit :=
  updateProof (·.addDefender attacker defender)

def attackersOf (arena : Arena) (a : Argument) : Search (List AttackerEntry) := do
  let session ← get
  match session.proof.attackers.lookup a.id with
  | some known => return known.successful
  | none =>
    let (found, supply) := arena.findAttackers a session.supply
    let recorded := found.successful.foldl (fun p e ↦ p.record e.attacker) session.proof
    set ({ proof := { recorded with attackers := (a.id, found) :: recorded.attackers }
           supply } : Session)
    return found.successful

end Search

end Argumentation
