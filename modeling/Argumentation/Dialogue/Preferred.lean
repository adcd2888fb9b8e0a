import Argumentation.Dialogue.Session

namespace Argumentation.Preferred

def conflicts (arena : Arena) (a : Argument) (pro : List Argument) : Bool :=
  pro.any fun p ↦ a.attacks arena.restricted p || p.attacks arena.restricted a

/-- The first counterattack that can be defended so that the other attackers can be answered in
the dispute that it leads to. -/
def firstDefence (arena : Arena) (defend others : Dispute → Search (Option Dispute)) (d : Dispute)
    (attacker : Argument) : List AttackerEntry → Search (Option Dispute)
  | [] => return none
  | e :: es => do
    let defender := e.attacker
    let rest := firstDefence arena defend others d attacker es
    if d.oppContains defender || conflicts arena defender d.pro then rest
    else match ← defend (d.exchange attacker defender) with
      | none => rest
      | some defended =>
        match ← others defended with
        | none => rest
        | some result =>
          Search.addDefender attacker defender
          Search.setStatus attacker .defeated
          return some result

def answerAll (arena : Arena) (defend : Dispute → Search (Option Dispute)) :
    List AttackerEntry → Dispute → Search (Option Dispute)
  | [], d => return some d
  | e :: es, d => do
    let attacker := e.attacker
    if d.oppContains attacker then answerAll arena defend es d
    else if d.proContains attacker then return none
    else match d.pro.find? (·.attacks arena.restricted attacker) with
      | some p =>
        Search.addDefender attacker p
        Search.setStatus attacker .defeated
        answerAll arena defend es (d.concede attacker)
      | none =>
        firstDefence arena defend (answerAll arena defend es) d attacker
          (← Search.attackersOf arena attacker)

def defend (arena : Arena) : (moves : Nat) → Dispute → Search (Option Dispute)
  | 0, _ => Search.outOfMoves
  | moves + 1, d =>
    match d.pro.getLast? with
    | none => return none
    | some a => do
      let result ← answerAll arena (defend arena moves) (← Search.attackersOf arena a) d
      Search.setStatus a (if result.isSome then .undefeated else .defeated)
      return result

end Argumentation.Preferred
