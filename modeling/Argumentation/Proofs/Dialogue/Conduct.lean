import Argumentation.Dialogue.Semantics
import Argumentation.Proofs.Dialogue.Memory

namespace Argumentation

namespace Search

variable {W : Type} {arena : Arena}

/-- A property of searches that goes through the actions of a dialogue, relative to what is known of
arguments. More is known after a search for attackers, which may only be for a known argument. -/
structure Conduct (arena : Arena) (Le : W → W → Prop) (Known : W → Argument → Prop)
    (P : W → ∀ {α : Type}, Search α → Prop) : Prop where
  known : ∀ {w v a}, Le w v → Known w a → Known v a
  pure : ∀ w {α : Type} (r : α), P w (pure r : Search α)
  bind : ∀ {w} {α β : Type} {m : Search α} {k : α → Search β}, P w m → (∀ r, P w (k r)) →
    P w (m >>= k)
  outOfMoves : ∀ w {α : Type}, P w (outOfMoves : Search α)
  quiet : ∀ {w} {u : Search Unit}, u.Quiet → P w u
  attackersOf : ∀ {w a} {β : Type} {k : List AttackerEntry → Search β}, Known w a →
    (∀ v es, Le w v → (∀ e ∈ es, Known v e.attacker) → P v (k es)) →
    P w (attackersOf arena a >>= k)

variable {Le : W → W → Prop} {Known : W → Argument → Prop} {P : W → ∀ {α : Type}, Search α → Prop}
  {defend : Dispute → Search (Option Dispute)} {w : W}

def Conducts (Known : W → Argument → Prop) (P : W → ∀ {α : Type}, Search α → Prop)
    (defend : Dispute → Search (Option Dispute)) : Prop :=
  ∀ w d, (∀ a, d.pro.getLast? = some a → Known w a) → P w (defend d)

theorem Conducts.exchange (h : Conducts Known P defend) (d : Dispute) (y : Argument) {z : Argument}
    (hz : Known w z) : P w (defend (d.exchange y z)) := by
  refine h w _ fun a ha ↦ ?_
  rw [Dispute.exchange, List.getLast?_concat] at ha
  cases ha
  exact hz

theorem Conduct.settled (h : Conduct arena Le Known P) {m : Search (Option Dispute)} (hm : P w m)
    (a : Argument) : P w (do
      let result ← m
      Search.setStatus a (if result.isSome then .undefeated else .defeated)
      return result) :=
  h.bind hm fun _ ↦ h.bind (h.quiet (setStatus_quiet _ _)) fun _ ↦ h.pure w _

theorem Grows.conduct :
    Conduct arena (fun _ _ : Unit ↦ True) (fun _ _ ↦ True) (fun _ _ ↦ Grows) where
  known _ h := h
  pure _ := .pure
  bind := .bind
  outOfMoves _ := .outOfMoves
  quiet := .quiet
  attackersOf _ hk := (Grows.attackersOf _).bind fun es ↦ hk () es trivial fun _ _ ↦ trivial

end Search

open Search (Conduct Conducts)

variable {W : Type} {arena : Arena} {Le : W → W → Prop} {Known : W → Argument → Prop}
  {P : W → ∀ {α : Type}, Search α → Prop} {defend others : Dispute → Search (Option Dispute)}
  {es : List AttackerEntry} {w : W}

namespace Grounded

theorem firstDefence_conducted (h : Conduct arena Le Known P) (hdefend : Conducts Known P defend)
    (d : Dispute) (y : Argument) (hes : ∀ e ∈ es, Known w e.attacker) :
    P w (firstDefence arena defend d y es) := by
  induction es with
  | nil => exact h.pure w none
  | cons e es ih =>
    obtain ⟨he, hes⟩ := List.forall_mem_cons.mp hes
    rw [firstDefence]
    split
    · exact ih hes
    refine h.bind (hdefend.exchange d y he) fun r ↦ ?_
    cases r with
    | none => exact ih hes
    | some d' => exact h.bind (h.quiet (Search.addDefender_quiet _ _)) fun _ ↦ h.pure w _

theorem answerAll_conducted (h : Conduct arena Le Known P) (hdefend : Conducts Known P defend)
    (hes : ∀ e ∈ es, Known w e.attacker) (d : Dispute) :
    P w (answerAll arena defend es d) := by
  induction es generalizing w d with
  | nil => exact h.pure w _
  | cons e es ih =>
    obtain ⟨he, hes⟩ := List.forall_mem_cons.mp hes
    refine h.attackersOf he fun v replies hwv hreplies ↦ ?_
    refine h.bind (firstDefence_conducted h hdefend d _ hreplies) fun r ↦ ?_
    cases r with
    | none => exact h.pure v none
    | some d' =>
      refine h.bind (h.quiet (Search.setStatus_quiet _ _)) fun _ ↦ ih (fun x hx ↦ ?_) d'
      exact h.known hwv (hes x hx)

theorem defend_conducts (h : Conduct arena Le Known P) (moves : Nat) :
    Conducts Known P (Grounded.defend arena moves) := by
  induction moves with
  | zero => exact fun w d _ ↦ h.outOfMoves w
  | succ moves ih =>
    intro w d hd
    rw [Grounded.defend]
    cases hlast : d.pro.getLast? with
    | none => exact h.pure w none
    | some a =>
      refine h.attackersOf (hd a hlast) fun v es _ hes ↦ ?_
      exact h.settled (answerAll_conducted h ih hes d) a

end Grounded

namespace Preferred

theorem firstDefence_conducted (h : Conduct arena Le Known P) (hdefend : Conducts Known P defend)
    (hothers : ∀ d, P w (others d)) (d : Dispute) (y : Argument)
    (hes : ∀ e ∈ es, Known w e.attacker) :
    P w (firstDefence arena defend others d y es) := by
  induction es with
  | nil => exact h.pure w none
  | cons e es ih =>
    obtain ⟨he, hes⟩ := List.forall_mem_cons.mp hes
    rw [firstDefence]
    split
    · exact ih hes
    refine h.bind (hdefend.exchange d y he) fun r ↦ ?_
    cases r with
    | none => exact ih hes
    | some defended =>
      refine h.bind (hothers defended) fun r ↦ ?_
      cases r with
      | none => exact ih hes
      | some d' =>
        refine h.bind (h.quiet (Search.addDefender_quiet _ _)) fun _ ↦ ?_
        exact h.bind (h.quiet (Search.setStatus_quiet _ _)) fun _ ↦ h.pure w _

theorem answerAll_conducted (h : Conduct arena Le Known P) (hdefend : Conducts Known P defend)
    (hes : ∀ e ∈ es, Known w e.attacker) (d : Dispute) :
    P w (answerAll arena defend es d) := by
  induction es generalizing w d with
  | nil => exact h.pure w _
  | cons e es ih =>
    obtain ⟨he, hes⟩ := List.forall_mem_cons.mp hes
    simp only [answerAll]
    split
    · exact ih hes d
    split
    · exact h.pure w none
    split
    · refine h.bind (h.quiet (Search.addDefender_quiet _ _)) fun _ ↦ ?_
      exact h.bind (h.quiet (Search.setStatus_quiet _ _)) fun _ ↦ ih hes _
    · refine h.attackersOf he fun v replies hwv hreplies ↦ ?_
      refine firstDefence_conducted h hdefend (fun d ↦ ih (fun x hx ↦ ?_) d) d _ hreplies
      exact h.known hwv (hes x hx)

theorem defend_conducts (h : Conduct arena Le Known P) (moves : Nat) :
    Conducts Known P (Preferred.defend arena moves) := by
  induction moves with
  | zero => exact fun w d _ ↦ h.outOfMoves w
  | succ moves ih =>
    intro w d hd
    rw [Preferred.defend]
    cases hlast : d.pro.getLast? with
    | none => exact h.pure w none
    | some a =>
      refine h.attackersOf (hd a hlast) fun v es _ hes ↦ ?_
      exact h.settled (answerAll_conducted h ih hes d) a

end Preferred

namespace Semantics

theorem defend_conducts (h : Conduct arena Le Known P) (semantics : Semantics) (moves : Nat) :
    Conducts Known P (semantics.defend arena moves) := by
  cases semantics with
  | grounded => exact Grounded.defend_conducts h moves
  | preferredCredulous => exact Preferred.defend_conducts h moves

theorem defend_seeded (h : Conduct arena Le Known P) (semantics : Semantics) (moves : Nat)
    {a : Argument} (ha : Known w a) : P w (semantics.defend arena moves (.seeded a)) := by
  refine defend_conducts h semantics moves w _ fun b hb ↦ ?_
  cases hb
  exact ha

end Semantics

end Argumentation
