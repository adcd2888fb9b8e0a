import Argumentation.Dialogue.Session

namespace Argumentation.Grounded

def firstDefence (arena : Arena) (defend : Dispute → Search (Option Dispute)) (d : Dispute)
    (attacker : Argument) : List AttackerEntry → Search (Option Dispute)
  | [] => return none
  | e :: es => do
    let defender := e.attacker
    if d.proContains defender || attacker.attacks arena.restricted defender then
      firstDefence arena defend d attacker es
    else match ← defend (d.exchange attacker defender) with
      | some result =>
        Search.addDefender attacker defender
        return some result
      | none => firstDefence arena defend d attacker es

def answerAll (arena : Arena) (defend : Dispute → Search (Option Dispute)) :
    List AttackerEntry → Dispute → Search (Option Dispute)
  | [], d => return some d
  | e :: es, d => do
    let attacker := e.attacker
    match ← firstDefence arena defend d attacker (← Search.attackersOf arena attacker) with
    | some result =>
      Search.setStatus attacker .defeated
      answerAll arena defend es result
    | none => return none

/-- The defence of the proponent's last argument in at most so many moves: the dispute that it
leads to, or none if the argument falls. -/
def defend (arena : Arena) : (moves : Nat) → Dispute → Search (Option Dispute)
  | 0, _ => Search.outOfMoves
  | moves + 1, d =>
    match d.pro.getLast? with
    | none => return none
    | some a => do
      let result ← answerAll arena (defend arena moves) (← Search.attackersOf arena a) d
      Search.setStatus a (if result.isSome then .undefeated else .defeated)
      return result

end Argumentation.Grounded
