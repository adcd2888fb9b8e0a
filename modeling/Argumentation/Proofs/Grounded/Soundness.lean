import Argumentation.Proofs.Dialogue.Coherence
import Argumentation.Proofs.Dialogue.Conduct

namespace Argumentation.Grounded

open AttackGraph

variable {arena : Arena}

/-- An argument that is in the grounded extension however the session goes on. -/
def Settled (arena : Arena) (τ : Session) (x : Argument) : Prop :=
  ∀ ρ, τ.Within ρ → x ∈ grounded (ρ.Attacks arena)

theorem Settled.later {σ τ : Session} {x : Argument} (h : Settled arena σ x) (hτ : σ.Within τ) :
    Settled arena τ x :=
  fun ρ hρ ↦ h ρ (hτ.trans hρ)

def Settles (arena : Arena) (defend : Dispute → Search (Option Dispute)) : Prop :=
  ∀ d σ result τ, defend d σ = some (some result, τ) → ∀ a, d.pro.getLast? = some a →
    Settled arena τ a

section Answers

variable {defend : Dispute → Search (Option Dispute)}

theorem firstDefence_grows (hgrow : ∀ d, (defend d).Grows) (d : Dispute) (y : Argument)
    (es : List AttackerEntry) : (firstDefence arena defend d y es).Grows :=
  firstDefence_conducted Search.Grows.conduct (w := ()) (fun _ d _ ↦ hgrow d) d y fun _ _ ↦ trivial

theorem answerAll_grows (hgrow : ∀ d, (defend d).Grows) (es : List AttackerEntry) (d : Dispute) :
    (answerAll arena defend es d).Grows :=
  answerAll_conducted Search.Grows.conduct (w := ()) (fun _ d _ ↦ hgrow d) (fun _ _ ↦ trivial) d

theorem firstDefence_settled (hd : Settles arena defend) {d result : Dispute} {y : Argument}
    {es : List AttackerEntry} {σ τ : Session}
    (h : firstDefence arena defend d y es σ = some (some result, τ)) :
    ∃ e ∈ es, Settled arena τ e.attacker := by
  induction es generalizing σ with
  | nil =>
    obtain ⟨hnone, -⟩ := Search.pure_eq_some.mp h
    cases hnone
  | cons e es ih =>
    simp only [firstDefence] at h
    split at h
    · obtain ⟨e', he', hs⟩ := ih h
      exact ⟨e', .tail _ he', hs⟩
    · obtain ⟨outcome, ρ, hrun, hrest⟩ := Search.bind_eq_some.mp h
      cases outcome with
      | none =>
        obtain ⟨e', he', hs⟩ := ih hrest
        exact ⟨e', .tail _ he', hs⟩
      | some r =>
        have hlast : (d.exchange y e.attacker).pro.getLast? = some e.attacker := by
          simp only [Dispute.exchange, List.getLast?_concat]
        have hgrow : ρ.Within τ :=
          ((Search.Grows.quiet (Search.addDefender_quiet y e.attacker)).bind fun _ ↦ .pure _)
            _ _ _ hrest
        exact ⟨e, .head _, (hd _ _ _ _ hrun _ hlast).later hgrow⟩

/-- When all attackers are answered, each of them has a settled attacker. -/
theorem answerAll_settled (hgrow : ∀ d, (defend d).Grows) (hd : Settles arena defend)
    {es : List AttackerEntry} {d result : Dispute} {σ τ ρ : Session}
    (h : answerAll arena defend es d σ = some (some result, τ)) (hρ : τ.Within ρ) :
    ∀ e ∈ es, ∃ z, ρ.Attacks arena z e.attacker ∧ z ∈ grounded (ρ.Attacks arena) := by
  induction es generalizing d σ with
  | nil => simp
  | cons e es ih =>
    obtain ⟨replies, σ₁, hlook, h⟩ := Search.bind_eq_some.mp h
    obtain ⟨outcome, σ₂, hfirst, h⟩ := Search.bind_eq_some.mp h
    cases outcome with
    | none =>
      obtain ⟨hnone, -⟩ := Search.pure_eq_some.mp h
      cases hnone
    | some r =>
      obtain ⟨u, σ₃, hstatus, hrest⟩ := Search.bind_eq_some.mp h
      have hlater : σ₂.Within ρ :=
        ((Search.Grows.quiet (Search.setStatus_quiet _ _) _ _ _ hstatus).trans
          (answerAll_grows hgrow es r _ _ _ hrest)).trans hρ
      intro e' he'
      rcases List.mem_cons.mp he' with rfl | he'
      · obtain ⟨z, hz, hset⟩ := firstDefence_settled hd hfirst
        refine ⟨z.attacker, ?_, hset ρ hlater⟩
        have hlisted := Search.attackers_of_attackersOf hlook
          ((firstDefence_grows hgrow d _ replies _ _ _ hfirst).trans hlater)
        rw [Session.Attacks, hlisted]
        exact List.mem_map_of_mem hz
      · exact ih hrest e' he'

end Answers

theorem defend_grows (moves : Nat) (d : Dispute) : (defend arena moves d).Grows :=
  defend_conducts Search.Grows.conduct moves () d fun _ _ ↦ trivial

theorem defend_settles (moves : Nat) : Settles arena (defend arena moves) := by
  induction moves with
  | zero => intro d σ result τ h; cases h
  | succ moves ih =>
    intro d σ result τ h a ha
    simp only [defend, ha] at h
    obtain ⟨es, σ₁, hlook, h⟩ := Search.bind_eq_some.mp h
    obtain ⟨outcome, σ₂, hall, h⟩ := Search.bind_eq_some.mp h
    obtain ⟨u, σ₃, hstatus, h⟩ := Search.bind_eq_some.mp h
    obtain ⟨rfl, rfl⟩ := Search.pure_eq_some.mp h
    intro ρ hρ
    have hlater : σ₂.Within ρ :=
      (Search.Grows.quiet (Search.setStatus_quiet _ _) _ _ _ hstatus).trans hρ
    -- The attackers of `a` were looked up before the answers, and no session forgets them.
    have hlisted := Search.attackers_of_attackersOf hlook
      ((answerAll_grows (defend_grows moves) es d _ _ _ hall).trans hlater)
    apply mem_grounded_of_defends
    rintro x rfl y hy
    rw [Session.Attacks, hlisted] at hy
    obtain ⟨e, he, rfl⟩ := List.mem_map.mp hy
    obtain ⟨z, hz, hset⟩ := answerAll_settled (defend_grows moves) ih hall hlater e he
    exact ⟨z, hset, hz⟩

/-- An argument that the sceptical dialogue accepts is in the grounded extension of the graph of
the attackers that the session lists. -/
theorem mem_grounded_of_defend {moves : Nat} {seed : Argument} {σ τ : Session} {d : Dispute}
    (h : defend arena moves (.seeded seed) σ = some (some d, τ)) :
    seed ∈ grounded (τ.Attacks arena) :=
  defend_settles moves _ _ _ _ h seed rfl τ (.refl τ)

def oneAttacker : Arena :=
  .ofAtoms .weakestLink [("a", [], .half), ("p", [], .threeQuarters), ("~p", [], .one),
    ("~a", ["p"], .threeQuarters)]

theorem oneAttacker_settled : ∃ seed σ d τ,
    Session.first? oneAttacker (.const "a") = some (seed, σ) ∧
      defend oneAttacker 3 (.seeded seed) σ = some (some d, τ) ∧
      seed ∈ grounded (τ.Attacks oneAttacker) := by
  have hcheck : (Session.first? oneAttacker (.const "a")).any (fun (seed, σ) ↦
      (defend oneAttacker 3 (.seeded seed) σ).any (·.1.isSome)) = true := by
    decide +kernel
  obtain ⟨⟨seed, σ⟩, hfirst, haccepted⟩ := (Option.any_eq_true _ _).mp hcheck
  obtain ⟨⟨result, τ⟩, hrun, hsome⟩ := (Option.any_eq_true _ _).mp haccepted
  obtain ⟨d, rfl⟩ := Option.isSome_iff_exists.mp hsome
  exact ⟨seed, σ, d, τ, hfirst, hrun, mem_grounded_of_defend hrun⟩

end Argumentation.Grounded
