import Argumentation.Dialogue.Grounded
import Argumentation.Dialogue.Preferred
import Argumentation.Error

namespace Argumentation

inductive Semantics where
  | grounded
  | preferredCredulous
  deriving DecidableEq, Repr

namespace Semantics

def text : Semantics → String
  | grounded => "grounded"
  | preferredCredulous => "preferred-credulous"

def ofText (s : String) : Except SettingsError Semantics :=
  if s = "grounded" then .ok grounded
  else if s = "preferred-credulous" then .ok preferredCredulous
  else .error (.unsupported "semantics" s "grounded, preferred-credulous")

def defend : Semantics → Arena → Nat → Dispute → Search (Option Dispute)
  | grounded => Grounded.defend
  | preferredCredulous => Preferred.defend

def evaluate (semantics : Semantics) (arena : Arena) (moves : Nat) (a : Argument) :
    Search (Option Dispute) := do
  Search.updateProof (·.record a)
  semantics.defend arena moves (.seeded a)

end Semantics

end Argumentation
