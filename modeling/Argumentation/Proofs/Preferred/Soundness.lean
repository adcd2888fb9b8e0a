import Argumentation.Proofs.Dialogue.Reached

namespace Argumentation.Preferred

open scoped Classical

variable {arena : Arena}

section Prefix

variable {defend others : Dispute → Search (Option Dispute)} {σ τ : Session} {d r : Dispute}

def Keeps (search : Dispute → Search (Option Dispute)) : Prop :=
  ∀ d r σ τ, search d σ = some (some r, τ) → d.pro <+: r.pro

theorem firstDefence_keeps (hd : Keeps defend) (ho : Keeps others) {y : Argument}
    {es : List AttackerEntry}
    (h : firstDefence arena defend others d y es σ = some (some r, τ)) : d.pro <+: r.pro := by
  induction es generalizing σ with
  | nil =>
    obtain ⟨hnone, -⟩ := Search.pure_eq_some.mp h
    cases hnone
  | cons e es ih =>
    simp only [firstDefence] at h
    split at h
    · exact ih h
    obtain ⟨defended, σ₁, hrun, h⟩ := Search.bind_eq_some.mp h
    cases defended with
    | none => exact ih h
    | some b =>
      obtain ⟨outcome, σ₂, hothers, h⟩ := Search.bind_eq_some.mp h
      cases outcome with
      | none => exact ih h
      | some r' =>
        obtain ⟨_, _, -, h⟩ := Search.bind_eq_some.mp h
        obtain ⟨_, _, -, h⟩ := Search.bind_eq_some.mp h
        obtain ⟨hr, -⟩ := Search.pure_eq_some.mp h
        cases hr
        have hexchange : d.pro <+: (d.exchange y e.attacker).pro := List.prefix_append _ _
        exact hexchange.trans ((hd _ _ _ _ hrun).trans (ho _ _ _ _ hothers))

theorem answerAll_keeps (hd : Keeps defend) (es : List AttackerEntry) :
    Keeps (answerAll arena defend es) := by
  induction es with
  | nil =>
    intro d r σ τ h
    obtain ⟨hr, -⟩ := Search.pure_eq_some.mp h
    cases hr
    exact List.prefix_rfl
  | cons e es ih =>
    intro d r σ τ h
    simp only [answerAll] at h
    split at h
    · exact ih _ _ _ _ h
    split at h
    · obtain ⟨hnone, -⟩ := Search.pure_eq_some.mp h
      cases hnone
    cases hfind : d.pro.find? (·.attacks arena.restricted e.attacker) with
    | some p =>
      rw [hfind] at h
      obtain ⟨_, _, -, h⟩ := Search.bind_eq_some.mp h
      obtain ⟨_, _, -, h⟩ := Search.bind_eq_some.mp h
      exact ih (d.concede e.attacker) _ _ _ h
    | none =>
      rw [hfind] at h
      obtain ⟨_, _, -, h⟩ := Search.bind_eq_some.mp h
      exact firstDefence_keeps hd ih h

theorem defend_keeps (moves : Nat) : Keeps (Preferred.defend arena moves) := by
  induction moves with
  | zero => intro d r σ τ h; cases h
  | succ moves ih =>
    intro d r σ τ h
    cases hl : d.pro.getLast? with
    | none =>
      simp only [Preferred.defend, hl] at h
      obtain ⟨hnone, -⟩ := Search.pure_eq_some.mp h
      cases hnone
    | some a =>
      simp only [Preferred.defend, hl] at h
      obtain ⟨es, σ₁, -, h⟩ := Search.bind_eq_some.mp h
      obtain ⟨result, σ₂, hall, h⟩ := Search.bind_eq_some.mp h
      obtain ⟨_, _, -, h⟩ := Search.bind_eq_some.mp h
      obtain ⟨rfl, -⟩ := Search.pure_eq_some.mp h
      exact answerAll_keeps ih es _ _ _ _ hall

end Prefix

/-- Over a ground store, the proponent's arguments in what the credulous dialogue accepts contain
the seed, do not attack each other, and attack every attacker that the session lists for them. -/
theorem pro_admissible_of_defend (hground : arena.theory.store.IsGround) {σ τ : Session}
    {flows : List (Flow ArgumentList)} {seeds : List Argument}
    (hσ : Session.Reached arena σ flows seeds) {seed : Argument} (hseed : seed ∈ seeds)
    {moves : Nat} {d : Dispute}
    (h : Preferred.defend arena moves (.seeded seed) σ = some (some d, τ)) :
    seed ∈ d.pro ∧
      (∀ x ∈ d.pro, ∀ y ∈ d.pro, y.attacks arena.restricted x = false) ∧
      ∀ x ∈ d.pro, ∀ y ∈ τ.attackers arena x, ∃ z ∈ d.pro, z.attacks arena.restricted y = true := by
  obtain ⟨L, hknown⟩ := hσ.known hground
  have hmirror := defend_mirrors hground moves L σ _ hknown.coherent
    (.seeded (hknown.seeds seed hseed))
  obtain ⟨M, -, hτ, hd, hout⟩ := hmirror.of_eq_some h
  have hpro := (hd d rfl).pro
  obtain ⟨-, hfree, hdefends⟩ := Game.Credulous.admissible_of_defend_eq_some hout
  refine ⟨(defend_keeps moves _ _ _ _ h).subset (.head _), fun x hx y hy ↦ ?_, fun x hx y hy ↦ ?_⟩
  · rw [Bool.eq_false_iff, ne_eq, (hpro y hy).attacks_iff hground (hpro x hx)]
    exact hfree x.form (List.mem_map_of_mem hx) y.form (List.mem_map_of_mem hy)
  · obtain ⟨found, K, hMK, hlisted, hfound, hforms⟩ := hτ.attackers_eq hground (hpro x hx)
    rw [hlisted] at hy
    obtain ⟨e, he, rfl⟩ := List.mem_map.mp hy
    have hattacks : e.attacker.form ∈ arena.attackersOf x.form := by
      rw [← hforms]
      exact List.mem_map_of_mem he
    obtain ⟨z', hz', hzy⟩ := hdefends x.form (List.mem_map_of_mem hx) _ hattacks
    obtain ⟨z, hz, rfl⟩ := List.mem_map.mp hz'
    refine ⟨z, hz, ?_⟩
    rw [((hpro z hz).mono hMK).attacks_iff hground (hfound e he)]
    exact hzy

def mutualAttack : Arena :=
  .ofAtoms .weakestLink [("a", [], .half), ("b", [], .threeQuarters), ("~b", [], .threeQuarters),
    ("~a", ["b"], .threeQuarters)]

theorem mutualAttack_admissible : mutualAttack.theory.store.IsGround ∧
    ∃ seed σ flows seeds d τ, Session.Reached mutualAttack σ flows seeds ∧ seed ∈ seeds ∧
      Preferred.defend mutualAttack 3 (.seeded seed) σ = some (some d, τ) ∧
      seed ∈ d.pro ∧
      (∀ x ∈ d.pro, ∀ y ∈ d.pro, y.attacks mutualAttack.restricted x = false) ∧
      ∀ x ∈ d.pro, ∀ y ∈ τ.attackers mutualAttack x,
        ∃ z ∈ d.pro, z.attacks mutualAttack.restricted y = true := by
  have hground : mutualAttack.theory.store.IsGround := by
    unfold RuleStore.IsGround
    decide +kernel
  have hcheck : (Session.first? mutualAttack (.const "a")).any (fun (seed, σ) ↦
      (Preferred.defend mutualAttack 3 (.seeded seed) σ).any (·.1.isSome)) = true := by
    decide +kernel
  obtain ⟨⟨seed, σ⟩, hfirst, haccepted⟩ := (Option.any_eq_true _ _).mp hcheck
  obtain ⟨⟨result, τ⟩, hrun, hsome⟩ := (Option.any_eq_true _ _).mp haccepted
  obtain ⟨d, rfl⟩ := Option.isSome_iff_exists.mp hsome
  obtain ⟨flows, seeds, hreached, hseed⟩ := Session.reached_of_first? hfirst rfl rfl
  exact ⟨hground, seed, σ, flows, seeds, d, τ, hreached, hseed, hrun,
    pro_admissible_of_defend hground hreached hseed hrun⟩

end Argumentation.Preferred
