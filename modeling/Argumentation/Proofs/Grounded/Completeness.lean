import Argumentation.Proofs.Dialogue.Moves
import Argumentation.Proofs.Dialogue.Reached
import Argumentation.Proofs.Game.Reserves
import Argumentation.Proofs.Grounded.Soundness

namespace Argumentation.Grounded

open AttackGraph

variable {arena : Arena}

open scoped Classical in
/-- Over a ground store, an argument that is grounded by defenders of which each is reserved for one
attack is accepted, given enough moves. -/
theorem exists_defend_of_reserves (hground : arena.theory.store.IsGround) {σ : Session}
    {flows : List (Flow ArgumentList)} {seeds : List Argument}
    (hσ : Session.Reached arena σ flows seeds) {seed : Argument} (hseed : seed ∈ seeds)
    (h : seed.form ∈ groundedByReserves arena.Attacks (needed arena.Attacks seed.form)) :
    ∃ n, ∀ moves, n < moves →
      ∃ d τ, Grounded.defend arena moves (.seeded seed) σ = some (some d, τ) := by
  obtain ⟨L, hknown⟩ := hσ.known hground
  have hmain := hknown.seeds seed hseed
  rw [Arena.attacks_eq_lists hground] at h
  refine ⟨arena.mains.toFinset.card, fun moves hmoves ↦ ?_⟩
  obtain ⟨r, hr⟩ := Game.Sceptical.exists_defend_eq_some
    (fun x _ y hy ↦ List.mem_toFinset.mpr (Arena.attackersOf_subset_mains hground hy))
    Arena.nodup_attackersOf (List.mem_toFinset.mpr hmain.2) h hmoves
  have hmirror := defend_mirrors hground moves L σ _ hknown.coherent (.seeded hmain)
  exact hmirror.exists_of_eq_some hr

/-- An argument is grounded by reserves if each of its attackers is attacked by arguments that
nothing attacks and that attack no other attacker of it. -/
theorem mem_groundedByReserves_of_answers (hground : arena.theory.store.IsGround) {x : Argument}
    (hx : x ∈ arena.mains)
    (hanswered : ∀ y ∈ arena.answers x,
      arena.answers y ≠ [] ∧ ∀ z ∈ arena.answers y, arena.answers z = [])
    (hapart : ∀ y ∈ arena.answers x, ∀ y' ∈ arena.answers x, ∀ z ∈ arena.answers y,
      z ∈ arena.answers y' → y' = y) :
    x ∈ groundedByReserves arena.Attacks (needed arena.Attacks x) := by
  intro S hS
  refine hS x fun y hyx ↦ ?_
  have hymain := Arena.mem_mains_of_attacks hground hyx
  have hy := (Arena.attacks_iff_of_mem hground hx).mp hyx
  obtain ⟨z, hz⟩ := List.exists_mem_of_ne_nil _ (hanswered y hy).1
  have hzy := (Arena.attacks_iff_of_mem hground hymain).mpr hz
  have hzmain := Arena.mem_mains_of_attacks hground hzy
  refine ⟨z, hS z fun w hw ↦ ?_, hzy, fun x' hx' y' hyx' hzy' ↦ ?_⟩
  · rw [Arena.attacks_iff_of_mem hground hzmain, (hanswered y hy).2 z hz] at hw
    cases hw
  · rw [Arena.attacks_iff_of_mem hground (Arena.mem_mains_of_attacks hground hyx')] at hzy'
    -- The one defender with attackers is the argument itself.
    rcases Arena.defender_of_answers hground hx (fun y hy ↦ (hanswered y hy).2) hx'.2 with
      rfl | ⟨hx'main, hnone⟩
    · have hy' := (Arena.attacks_iff_of_mem hground hx).mp hyx'
      exact ⟨hapart y hy y' hy' z hz hzy', rfl⟩
    · rw [Arena.attacks_iff_of_mem hground hx'main, hnone] at hyx'
      cases hyx'

/-- One argument against `a` rests on `p`, the other one on `q`. -/
def twoDefenders : Arena :=
  .ofAtoms .weakestLink [("a", [], .half), ("p", [], .threeQuarters), ("q", [], .threeQuarters),
    ("~p", [], .one), ("~q", [], .one), ("~a", ["p"], .threeQuarters),
    ("~a", ["q"], .threeQuarters)]

theorem twoDefenders_accepted : twoDefenders.theory.store.IsGround ∧
    ∃ seed σ flows seeds, Session.Reached twoDefenders σ flows seeds ∧ seed ∈ seeds ∧
      (∃ y y', y ≠ y' ∧ ∀ u, twoDefenders.Attacks u seed.form ↔ u = y ∨ u = y') ∧
      seed.form ∈ groundedByReserves twoDefenders.Attacks
        (needed twoDefenders.Attacks seed.form) ∧
      ∃ n, ∀ moves, n < moves →
        ∃ d τ, Grounded.defend twoDefenders moves (.seeded seed) σ = some (some d, τ) := by
  have hground : twoDefenders.theory.store.IsGround := by
    unfold RuleStore.IsGround
    decide +kernel
  have hcheck : (Session.first? twoDefenders (.const "a")).any (fun (seed, _) ↦
      let attackers := twoDefenders.answers seed.form
      attackers.length == 2 && attackers.all (fun y ↦ !(twoDefenders.answers y).isEmpty &&
        (twoDefenders.answers y).all fun z ↦ (twoDefenders.answers z).isEmpty) &&
          attackers.Pairwise fun y y' ↦ ∀ z ∈ twoDefenders.answers y,
            ∀ z' ∈ twoDefenders.answers y', z.claim.text ≠ z'.claim.text) = true := by
    decide +kernel
  obtain ⟨⟨seed, σ⟩, hfirst, hcheck⟩ := (Option.any_eq_true _ _).mp hcheck
  simp only [Bool.and_eq_true, beq_iff_eq, List.all_eq_true, Bool.not_eq_true',
    List.isEmpty_iff, List.isEmpty_eq_false_iff, decide_eq_true_eq] at hcheck
  obtain ⟨⟨htwo, hanswered⟩, hclaims⟩ := hcheck
  obtain ⟨y, y', hpair⟩ := List.length_eq_two.mp htwo
  have hmem (u : Argument) : u ∈ twoDefenders.answers seed.form ↔ u = y ∨ u = y' := by
    rw [hpair, List.mem_pair]
  -- Equality of arguments is not decided, but the defenders differ in what they claim.
  have hapart : ∀ z ∈ twoDefenders.answers y, z ∉ twoDefenders.answers y' := by
    rw [hpair, List.pairwise_pair] at hclaims
    exact fun z hz hz' ↦ hclaims z hz z hz' rfl
  have hne : y ≠ y' := by
    rintro rfl
    obtain ⟨z, hz⟩ := List.exists_mem_of_ne_nil _ (hanswered y ((hmem y).mpr (.inl rfl))).1
    exact hapart z hz hz
  obtain ⟨flows, seeds, hreached, hseed⟩ := Session.reached_of_first? hfirst rfl rfl
  obtain ⟨L, hknown⟩ := hreached.known hground
  have hmain := (hknown.seeds seed hseed).2
  have hattacks (u : Argument) : twoDefenders.Attacks u seed.form ↔ u = y ∨ u = y' :=
    (Arena.attacks_iff_of_mem hground hmain).trans (hmem u)
  have hreserves : seed.form ∈
      groundedByReserves twoDefenders.Attacks (needed twoDefenders.Attacks seed.form) := by
    refine mem_groundedByReserves_of_answers hground hmain hanswered fun u hu u' hu' z hz hz' ↦ ?_
    rcases (hmem u).mp hu with rfl | rfl <;> rcases (hmem u').mp hu' with rfl | rfl
    · rfl
    · exact absurd hz' (hapart z hz)
    · exact absurd hz (hapart z hz')
    · rfl
  exact ⟨hground, seed, σ, flows, seeds, hreached, hseed, ⟨y, y', hne, hattacks⟩, hreserves,
    exists_defend_of_reserves hground hreached hseed hreserves⟩

/-- Both arguments against `a` rest on `p`, and only the argument for `~p` is against them. -/
def oneDefender : Arena :=
  .ofAtoms .weakestLink [("a", [], .half), ("p", [], .threeQuarters), ("~p", [], .one),
    ("q", ["p"], .threeQuarters), ("~a", ["p"], .threeQuarters), ("~a", ["q"], .threeQuarters)]

/-- Completeness fails without reserves: a grounded argument is rejected, however many moves there
are, since its one defender is not put forward against both of its attackers. -/
theorem oneDefender_rejected : oneDefender.theory.store.IsGround ∧
    ∃ seed σ, Session.first? oneDefender (.const "a") = some (seed, σ) ∧
      seed.form ∈ grounded oneDefender.Attacks ∧
      ∀ moves d τ, Grounded.defend oneDefender moves (.seeded seed) σ ≠ some (some d, τ) := by
  have hground : oneDefender.theory.store.IsGround := by
    unfold RuleStore.IsGround
    decide +kernel
  have hcheck : (Session.first? oneDefender (.const "a")).any (fun (seed, σ) ↦
      ((oneDefender.answers seed.form).all fun y ↦
        (oneDefender.answers y).any fun z ↦ (oneDefender.answers z).isEmpty) &&
      (Semantics.grounded.defend oneDefender 4 (.seeded seed) σ).any (·.1.isNone)) = true := by
    decide +kernel
  obtain ⟨⟨seed, σ⟩, hfirst, hcheck⟩ := (Option.any_eq_true _ _).mp hcheck
  simp only [Bool.and_eq_true, List.all_eq_true, List.any_eq_true, List.isEmpty_iff] at hcheck
  obtain ⟨hall, hrejected⟩ := hcheck
  obtain ⟨flows, seeds, hreached, hseed⟩ := Session.reached_of_first? hfirst rfl rfl
  obtain ⟨L, hknown⟩ := hreached.known hground
  have hmain := (hknown.seeds seed hseed).2
  refine ⟨hground, seed, σ, hfirst, mem_grounded_of_defends ?_, fun moves d τ h ↦ ?_⟩
  · rintro x rfl y hy
    have hymain := Arena.mem_mains_of_attacks hground hy
    rw [Arena.attacks_iff_of_mem hground hmain] at hy
    obtain ⟨z, hz, hnone⟩ := hall y hy
    have hzy := (Arena.attacks_iff_of_mem hground hymain).mpr hz
    refine ⟨z, mem_grounded_of_defends ?_, hzy⟩
    rintro x rfl w hw
    rw [Arena.attacks_iff_of_mem hground (Arena.mem_mains_of_attacks hground hzy), hnone] at hw
    cases hw
  · obtain ⟨⟨result, τ'⟩, hrun, hnone⟩ := (Option.any_eq_true _ _).mp hrejected
    have hsame := Semantics.defend_unique .grounded (m := moves) h hrun
    cases hsame
    cases hnone

end Argumentation.Grounded
