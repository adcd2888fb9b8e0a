import Argumentation.Dialogue.Semantics
import Argumentation.Proofs.Dialogue.Memory

namespace Argumentation

def Search.Refines {α : Type} (m m' : Search α) : Prop :=
  ∀ σ r, m σ = some r → m' σ = some r

namespace Search.Refines

variable {α β : Type}

theorem refl (m : Search α) : Refines m m :=
  fun _ _ h ↦ h

theorem bind {m m' : Search α} {k k' : α → Search β} (hm : Refines m m')
    (hk : ∀ a, Refines (k a) (k' a)) : Refines (m >>= k) (m' >>= k') := by
  intro σ r h
  obtain ⟨a, ρ, h₁, h₂⟩ := bind_eq_some.mp h
  exact bind_eq_some.mpr ⟨a, ρ, hm σ _ h₁, hk a ρ _ h₂⟩

end Search.Refines

open Search (Refines)

variable {arena : Arena} {defend defend' others others' : Dispute → Search (Option Dispute)}

namespace Grounded

theorem firstDefence_refines (hd : ∀ d, Refines (defend d) (defend' d)) (d : Dispute) (y : Argument)
    (es : List AttackerEntry) :
    Refines (firstDefence arena defend d y es) (firstDefence arena defend' d y es) := by
  induction es with
  | nil => exact .refl _
  | cons e es ih =>
    simp only [firstDefence]
    split
    · exact ih
    · refine (hd _).bind fun outcome ↦ ?_
      cases outcome with
      | none => exact ih
      | some r => exact .refl _

theorem answerAll_refines (hd : ∀ d, Refines (defend d) (defend' d)) (es : List AttackerEntry)
    (d : Dispute) : Refines (answerAll arena defend es d) (answerAll arena defend' es d) := by
  induction es generalizing d with
  | nil => exact .refl _
  | cons e es ih =>
    refine (Refines.refl _).bind fun replies ↦ (firstDefence_refines hd d _ replies).bind ?_
    intro outcome
    cases outcome with
    | none => exact .refl _
    | some r => exact (Refines.refl _).bind fun _ ↦ ih r

theorem defend_refines_succ (moves : Nat) (d : Dispute) :
    Refines (Grounded.defend arena moves d) (Grounded.defend arena (moves + 1) d) := by
  induction moves generalizing d with
  | zero => intro σ r h; cases h
  | succ moves ih =>
    rw [Grounded.defend, Grounded.defend]
    cases d.pro.getLast? with
    | none => exact .refl _
    | some a =>
      exact (Refines.refl _).bind fun es ↦ (answerAll_refines ih es d).bind fun _ ↦ .refl _

end Grounded

namespace Preferred

theorem firstDefence_refines (hd : ∀ d, Refines (defend d) (defend' d))
    (ho : ∀ d, Refines (others d) (others' d)) (d : Dispute) (y : Argument)
    (es : List AttackerEntry) :
    Refines (firstDefence arena defend others d y es)
      (firstDefence arena defend' others' d y es) := by
  induction es with
  | nil => exact .refl _
  | cons e es ih =>
    simp only [firstDefence]
    split
    · exact ih
    · refine (hd _).bind fun defended ↦ ?_
      cases defended with
      | none => exact ih
      | some b =>
        refine (ho b).bind fun outcome ↦ ?_
        cases outcome with
        | none => exact ih
        | some r => exact .refl _

theorem answerAll_refines (hd : ∀ d, Refines (defend d) (defend' d)) (es : List AttackerEntry)
    (d : Dispute) : Refines (answerAll arena defend es d) (answerAll arena defend' es d) := by
  induction es generalizing d with
  | nil => exact .refl _
  | cons e es ih =>
    simp only [answerAll]
    split
    · exact ih d
    split
    · exact .refl _
    cases d.pro.find? (·.attacks arena.restricted e.attacker) with
    | some p => exact (Refines.refl _).bind fun _ ↦ (Refines.refl _).bind fun _ ↦ ih _
    | none => exact (Refines.refl _).bind fun replies ↦ firstDefence_refines hd ih d _ replies

theorem defend_refines_succ (moves : Nat) (d : Dispute) :
    Refines (Preferred.defend arena moves d) (Preferred.defend arena (moves + 1) d) := by
  induction moves generalizing d with
  | zero => intro σ r h; cases h
  | succ moves ih =>
    rw [Preferred.defend, Preferred.defend]
    cases d.pro.getLast? with
    | none => exact .refl _
    | some a =>
      exact (Refines.refl _).bind fun es ↦ (answerAll_refines ih es d).bind fun _ ↦ .refl _

end Preferred

/-- An answer in so many moves is the answer in any number of moves that is enough for one. -/
theorem Semantics.defend_unique (semantics : Semantics) {m n : Nat} {d : Dispute} {σ : Session}
    {r r' : Option Dispute × Session} (h : semantics.defend arena m d σ = some r)
    (h' : semantics.defend arena n d σ = some r') : r = r' := by
  have hsucc (k : Nat) :
      Refines (semantics.defend arena k d) (semantics.defend arena (k + 1) d) := by
    cases semantics with
    | grounded => exact Grounded.defend_refines_succ k d
    | preferredCredulous => exact Preferred.defend_refines_succ k d
  have hadd (k j : Nat) :
      Refines (semantics.defend arena k d) (semantics.defend arena (k + j) d) := by
    induction j with
    | zero => exact .refl _
    | succ j ih => exact fun σ r h ↦ hsucc (k + j) σ r (ih σ r h)
  have h₁ := hadd m n σ r h
  have h₂ := hadd n m σ r' h'
  rw [Nat.add_comm n m, h₁] at h₂
  exact Option.some.inj h₂

end Argumentation
