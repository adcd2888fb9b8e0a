import Argumentation.Argument.Basic
import Argumentation.Error

namespace Argumentation

inductive Valuation where
  | weakestLink
  | lastLink
  deriving DecidableEq, Repr

namespace Valuation

def text : Valuation → String
  | weakestLink => "weakest-link"
  | lastLink => "last-link"

def ofText (s : String) : Except SettingsError Valuation :=
  if s = "weakest-link" then .ok weakestLink
  else if s = "last-link" then .ok lastLink
  else .error (.unsupported "valuation" s "weakest-link, last-link")

/-- Whether an argument is never stronger than its sub-arguments, so that a lower bound on it is
one on them. -/
def prunes : Valuation → Bool
  | weakestLink => true
  | lastLink => false

def strength (v : Valuation) (r : Rule) (subs : List Argument) : Degree :=
  if v = lastLink ∧ r.isDefeasible then r.degree
  else subs.foldl (fun d a ↦ min d a.strength) r.degree

end Valuation

end Argumentation
