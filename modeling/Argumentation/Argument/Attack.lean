import Argumentation.Argument.Basic

namespace Argumentation

inductive AttackKind where
  | rebut
  | undercut
  deriving DecidableEq, Repr

def AttackKind.text : AttackKind → String
  | rebut => "rebut"
  | undercut => "undercut"

structure Attack where
  kind : AttackKind
  target : Argument

namespace Argument

def denies (a : Argument) (t : Term) : Bool :=
  a.claim.isLiteral && t.negation?.any a.claim.isVariant

/-- A denial of the victim's own claim. Strict arguments are safe from it, and weaker attackers
fail; rebutting may be restricted so that a defeasible rule does not rebut a strict one. -/
def rebuts (restricted : Bool) (a victim : Argument) : Bool :=
  victim.strength != .one && victim.strength ≤ a.strength &&
    !(restricted && a.rule.isDefeasible && victim.rule.isStrict) && a.denies victim.claim

def undercuts (a victim : Argument) : Bool :=
  victim.rule.isDefeasible && victim.ruleName?.any a.denies

def attackOn? (restricted : Bool) (a victim : Argument) : Option AttackKind :=
  if a.undercuts victim then some .undercut
  else if a.rebuts restricted victim then some .rebut
  else none

/-- The attack on a node of the victim, one as near to the root as there is. -/
def deepAttack? (restricted : Bool) (a victim : Argument) : Option Attack :=
  victim.subtree.findSome? fun node ↦ (a.attackOn? restricted node).map (⟨·, node⟩)

def attacks (restricted : Bool) (a victim : Argument) : Bool :=
  (a.deepAttack? restricted victim).isSome

end Argument

end Argumentation
