import Argumentation.Proofs.Dialogue.Moves
import Argumentation.Proofs.Dialogue.Reached

namespace Argumentation

variable {arena : Arena}

/-- Over a ground store, a dialogue ends if it may nest as many defences as there are arguments for
conclusions of rules. -/
theorem Semantics.exists_defend_eq_some (semantics : Semantics)
    (hground : arena.theory.store.IsGround) {L : Ledger} {σ : Session} (hσ : σ.Coherent arena L)
    {seed : Argument} (hseed : arena.Known L seed) {moves : Nat}
    (hmoves : arena.mains.length < moves) :
    ∃ r, semantics.defend arena moves (.seeded seed) σ = some r := by
  classical
  have hmem : seed.form ∈ arena.mains.toFinset := List.mem_toFinset.mpr hseed.2
  have hcard : arena.mains.toFinset.card < moves :=
    Nat.lt_of_le_of_lt (List.toFinset_card_le _) hmoves
  have hclosed := Arena.mains_closed hground
  cases semantics with
  | grounded =>
    have hmirror := Grounded.defend_mirrors hground moves L σ _ hσ (.seeded hseed)
    exact hmirror.exists_of_ne_none (Game.Sceptical.defend_seeded_ne_none hclosed hmem hcard)
  | preferredCredulous =>
    have hmirror := Preferred.defend_mirrors hground moves L σ _ hσ (.seeded hseed)
    exact hmirror.exists_of_ne_none (Game.Credulous.defend_seeded_ne_none hclosed hmem hcard)

/-- Over a ground store, both dialogues about an argument end: there is one outcome that they have
whenever they may nest as many defences as there are arguments for conclusions of rules. -/
theorem Semantics.exists_outcome (hground : arena.theory.store.IsGround) {σ : Session}
    {flows : List (Flow ArgumentList)} {drawn : List Argument}
    (hσ : Session.Explored arena σ flows drawn) {seed : Argument} (hseed : σ.Holds drawn seed)
    (semantics : Semantics) :
    ∃ r, ∀ moves, arena.mains.length < moves →
      semantics.defend arena moves (.seeded seed) σ = some r := by
  obtain ⟨L, hknown⟩ := hσ.known hground
  have hends {moves : Nat} (hmoves : arena.mains.length < moves) :=
    semantics.exists_defend_eq_some hground hknown.coherent (hknown.of_holds hseed) hmoves
  obtain ⟨r, hr⟩ := hends (Nat.lt_succ_self _)
  refine ⟨r, fun moves hmoves ↦ ?_⟩
  obtain ⟨r', hr'⟩ := hends hmoves
  rw [hr', semantics.defend_unique hr' hr]

def oddCycle : Arena :=
  .ofAtoms .weakestLink [("a", [], .half), ("~a", ["c"], .half), ("b", [], .half),
    ("~b", ["a"], .half), ("c", [], .half), ("~c", ["b"], .half)]

theorem oddCycle_ends : oddCycle.theory.store.IsGround ∧
    ∃ seed σ, Session.first? oddCycle (.const "a") = some (seed, σ) ∧
      ∃ flows drawn, Session.Explored oddCycle σ flows drawn ∧ σ.Holds drawn seed ∧
      ∀ semantics : Semantics, ∃ r, ∀ moves, oddCycle.mains.length < moves →
        semantics.defend oddCycle moves (.seeded seed) σ = some r := by
  have hground : oddCycle.theory.store.IsGround := by
    unfold RuleStore.IsGround
    decide +kernel
  have hsome : (Session.first? oddCycle (.const "a")).isSome = true := by
    decide +kernel
  obtain ⟨⟨seed, σ⟩, hfirst⟩ := Option.isSome_iff_exists.mp hsome
  obtain ⟨flows, seeds, hreached, hseed⟩ := Session.reached_of_first? hfirst rfl rfl
  exact ⟨hground, seed, σ, hfirst, flows, seeds, hreached.explored, .inl hseed,
    Semantics.exists_outcome hground hreached.explored (.inl hseed)⟩

end Argumentation
