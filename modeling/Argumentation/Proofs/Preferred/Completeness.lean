import Argumentation.Proofs.Dialogue.Moves
import Argumentation.Proofs.Dialogue.Reached
import Argumentation.Proofs.Game.Resilience

namespace Argumentation.Preferred

open AttackGraph

variable {arena : Arena}

open scoped Classical in
/-- Over a ground store, a member of an admissible set is accepted, given enough moves, if no
defence of one of its defenders makes the arguments put forward untenable. -/
theorem exists_defend_of_resilient (hground : arena.theory.store.IsGround) {σ : Session}
    {flows : List (Flow ArgumentList)} {seeds : List Argument}
    (hσ : Session.Reached arena σ flows seeds) {seed : Argument} (hseed : seed ∈ seeds)
    (h : ∃ A, Admissible arena.Attacks A ∧ seed.form ∈ A)
    (hres : Resilient arena.Attacks seed.form) :
    ∃ n, ∀ moves, n < moves →
      ∃ d τ, Preferred.defend arena moves (.seeded seed) σ = some (some d, τ) := by
  obtain ⟨L, hknown⟩ := hσ.known hground
  have hmain := hknown.seeds seed hseed
  have htenable : Tenable arena.Attacks {seed.form} := by
    obtain ⟨A, hA, hmem⟩ := h
    exact ⟨A, hA, Set.singleton_subset_iff.mpr hmem⟩
  rw [Arena.attacks_eq_lists hground] at htenable hres
  refine ⟨arena.mains.toFinset.card, fun moves hmoves ↦ ?_⟩
  obtain ⟨r, hr⟩ := Game.Credulous.exists_defend_eq_some
    (fun x _ y hy ↦ List.mem_toFinset.mpr (Arena.attackersOf_subset_mains hground hy))
    (List.mem_toFinset.mpr hmain.2) htenable hres hmoves
  have hmirror := defend_mirrors hground moves L σ _ hknown.coherent (.seeded hmain)
  exact hmirror.exists_of_eq_some hr

def attackedPremise : Arena :=
  .ofAtoms .lastLink [("a", [], .half), ("p", [], .threeQuarters), ("~p", [], .one),
    ("~a", ["p"], .threeQuarters)]

theorem attackedPremise_accepted : attackedPremise.theory.store.IsGround ∧
    ∃ seed σ flows seeds, Session.Reached attackedPremise σ flows seeds ∧ seed ∈ seeds ∧
      (∃ A, Admissible attackedPremise.Attacks A ∧ seed.form ∈ A) ∧
      Resilient attackedPremise.Attacks seed.form ∧
      ∃ n, ∀ moves, n < moves →
        ∃ d τ, Preferred.defend attackedPremise moves (.seeded seed) σ = some (some d, τ) := by
  have hground : attackedPremise.theory.store.IsGround := by
    unfold RuleStore.IsGround
    decide +kernel
  have hcheck : (Session.first? attackedPremise (.const "a")).any (fun (seed, _) ↦
      (attackedPremise.answers seed.form).all fun y ↦
        !(attackedPremise.answers y).isEmpty &&
          (attackedPremise.answers y).all fun z ↦ (attackedPremise.answers z).isEmpty) = true := by
    decide +kernel
  obtain ⟨⟨seed, σ⟩, hfirst, hcheck⟩ := (Option.any_eq_true _ _).mp hcheck
  simp only [Bool.and_eq_true, Bool.not_eq_true', List.all_eq_true, List.isEmpty_iff] at hcheck
  obtain ⟨flows, seeds, hreached, hseed⟩ := Session.reached_of_first? hfirst rfl rfl
  obtain ⟨L, hknown⟩ := hreached.known hground
  have hmain := (hknown.seeds seed hseed).2
  have hattacks {x y : Argument} (hx : x ∈ attackedPremise.mains) :
      attackedPremise.Attacks y x ↔ y ∈ attackedPremise.answers x :=
    Arena.attacks_iff_of_mem hground hx
  have hdefenders {p : Argument} (hp : Defender attackedPremise.Attacks seed.form p) :
      p = seed.form ∨ p ∈ attackedPremise.mains ∧ attackedPremise.answers p = [] :=
    Arena.defender_of_answers hground hmain (fun y hy ↦ (hcheck y hy).2) hp
  have hadmissible : Admissible attackedPremise.Attacks
      {p | Defender attackedPremise.Attacks seed.form p} := by
    refine ⟨fun x hx y hy hyx ↦ ?_, fun x hx y hyx ↦ ?_⟩
    all_goals rcases hdefenders hx with rfl | ⟨hxmain, hnone⟩
    · rw [hattacks hmain] at hyx
      obtain ⟨hsome, hnone⟩ := hcheck y hyx
      rcases hdefenders hy with rfl | ⟨-, hnone'⟩
      · rw [hnone _ hyx] at hyx
        cases hyx
      · rw [hnone'] at hsome
        cases hsome
    · rw [hattacks hxmain, hnone] at hyx
      cases hyx
    · have hymain := Arena.mem_mains_of_attacks hground hyx
      obtain ⟨hsome, -⟩ := hcheck y ((hattacks hmain).mp hyx)
      obtain ⟨z, hz⟩ := List.exists_mem_of_ne_nil _ (List.isEmpty_eq_false_iff.mp hsome)
      have hzy := (hattacks hymain).mpr hz
      exact ⟨z, Defender.step Defender.self hyx hzy, hzy⟩
    · rw [hattacks hxmain, hnone] at hyx
      cases hyx
  have hresilient : Resilient attackedPremise.Attacks seed.form := by
    intro P N a ha hne _ hP htenable hN _ _
    -- Nothing attacks `a`, so it has no defender but itself and `N` adds nothing.
    have hnone : ∀ y, ¬ attackedPremise.Attacks y a := by
      intro y hy
      rcases hdefenders (hP ha) with rfl | ⟨hamain, hnone⟩
      · exact hne rfl
      · rw [hattacks hamain, hnone] at hy
        cases hy
    have halone {p : Argument} (hp : Defender attackedPremise.Attacks a p) : p = a := by
      induction hp with
      | self => rfl
      | step _ hy _ ih => exact absurd (ih ▸ hy) (hnone _)
    have hsub : N ⊆ P := by
      intro p hp
      rw [halone (hN hp)]
      exact ha
    rw [Set.union_eq_self_of_subset_right hsub]
    exact htenable
  have hmember : ∃ A, Admissible attackedPremise.Attacks A ∧ seed.form ∈ A :=
    ⟨_, hadmissible, Defender.self⟩
  exact ⟨hground, seed, σ, flows, seeds, hreached, hseed, hmember, hresilient,
    exists_defend_of_resilient hground hreached hseed hmember hresilient⟩

/-- The argument for `~b` can be defended by the one for `~e` as well as by the one for `~f`, but
only with the second can `~c` be put forward against the other attacker of `a`. -/
def hastyDefence : Arena :=
  .ofAtoms .lastLink [("a", [], .half), ("b", [], .half), ("c", [], .half), ("d", [], .half),
    ("e", [], .half), ("f", [], .half), ("~f", [], .threeQuarters), ("~a", ["b"], .threeQuarters),
    ("~a", ["c"], .threeQuarters), ("~b", ["d"], .threeQuarters),
    ("~d", ["e", "f"], .threeQuarters), ("~e", ["c"], .threeQuarters),
    ("~c", ["e"], .threeQuarters)]

def hastyDefence.defenders : List Argument :=
  hastyDefence.mains.filter fun x ↦ ["a", "~b", "~c", "~f"].any fun f ↦ x.claim.same (.const f)

/-- Completeness fails without resilience: a member of an admissible set is rejected, however many
moves there are, since a choice made in a defence that has succeeded is not revisited. -/
theorem hastyDefence_rejected : hastyDefence.theory.store.IsGround ∧
    ∃ seed σ, Session.first? hastyDefence (.const "a") = some (seed, σ) ∧
      (∃ A, Admissible hastyDefence.Attacks A ∧ seed.form ∈ A) ∧
      ∀ moves d τ, Preferred.defend hastyDefence moves (.seeded seed) σ ≠ some (some d, τ) := by
  have hground : hastyDefence.theory.store.IsGround := by
    unfold RuleStore.IsGround
    decide +kernel
  have hfree : (hastyDefence.defenders.all fun x ↦ hastyDefence.defenders.all fun y ↦
      !y.attacks hastyDefence.restricted x) = true := by
    decide +kernel
  have hdefends : (hastyDefence.defenders.all fun x ↦ (hastyDefence.answers x).all fun y ↦
      hastyDefence.defenders.any fun z ↦ z.attacks hastyDefence.restricted y) = true := by
    decide +kernel
  have hcheck : (Session.first? hastyDefence (.const "a")).any (fun (seed, σ) ↦
      seed.form.claim.same (.const "a") && (Semantics.preferredCredulous.defend hastyDefence 10
        (.seeded seed) σ).any (·.1.isNone)) = true := by
    decide +kernel
  obtain ⟨⟨seed, σ⟩, hfirst, hcheck⟩ := (Option.any_eq_true _ _).mp hcheck
  simp only [Bool.and_eq_true] at hcheck
  obtain ⟨hclaim, hrejected⟩ := hcheck
  simp only [List.all_eq_true, List.any_eq_true, Bool.not_eq_true'] at hfree hdefends
  obtain ⟨flows, seeds, hreached, hseed⟩ := Session.reached_of_first? hfirst rfl rfl
  obtain ⟨L, hknown⟩ := hreached.known hground
  have hmember : seed.form ∈ hastyDefence.defenders := by
    rw [hastyDefence.defenders, List.mem_filter, List.any_cons, hclaim]
    exact ⟨(hknown.seeds seed hseed).2, rfl⟩
  have hmains : hastyDefence.defenders ⊆ hastyDefence.mains := by
    rw [hastyDefence.defenders]
    exact List.filter_subset_self _
  have hadmissible := Arena.exists_admissible hground hmains hfree hdefends hmember
  refine ⟨hground, seed, σ, hfirst, hadmissible, ?_⟩
  intro moves d τ h
  obtain ⟨⟨result, τ'⟩, hrun, hnone⟩ := (Option.any_eq_true _ _).mp hrejected
  have hsame := Semantics.defend_unique .preferredCredulous (m := moves) h hrun
  cases hsame
  cases hnone

end Argumentation.Preferred
