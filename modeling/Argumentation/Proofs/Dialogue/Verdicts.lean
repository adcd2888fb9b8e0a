import Argumentation.Proofs.Dialogue.Reached
import Argumentation.Proofs.Game.Inclusion

namespace Argumentation

open AttackGraph

variable {arena : Arena} {σ σ' : Session} {flows flows' : List (Flow ArgumentList)}
  {drawn drawn' : List Argument}

/-- Over a ground store, what the sceptical dialogue accepts is grounded in the attack graph. -/
theorem Grounded.form_mem_grounded (hground : arena.theory.store.IsGround) {L : Ledger}
    (hσ : σ.Coherent arena L) {seed : Argument} (hseed : arena.Known L seed) {moves : Nat}
    {d : Dispute} {τ : Session}
    (h : Grounded.defend arena moves (.seeded seed) σ = some (some d, τ)) :
    seed.form ∈ grounded arena.Attacks := by
  classical
  have hmirror := Grounded.defend_mirrors hground moves L σ _ hσ (.seeded hseed)
  obtain ⟨-, -, -, -, hout⟩ := hmirror.of_eq_some h
  rw [Arena.attacks_eq_lists hground]
  exact (Game.Sceptical.defend_sound moves _ _ hout seed.form rfl).1

/-- Over a ground store, no argument that the sceptical dialogue accepts attacks another one that it
accepts or itself, in whatever sessions the two were disputed. -/
theorem Grounded.attacks_eq_false_of_defend (hground : arena.theory.store.IsGround)
    (hσ : Session.Explored arena σ flows drawn) (hσ' : Session.Explored arena σ' flows' drawn')
    {x y : Argument} (hx : σ.Holds drawn x) (hy : σ'.Holds drawn' y) {m n : Nat} {d d' : Dispute}
    {τ τ' : Session} (h : Grounded.defend arena m (.seeded x) σ = some (some d, τ))
    (h' : Grounded.defend arena n (.seeded y) σ' = some (some d', τ')) :
    x.attacks arena.restricted y = false := by
  obtain ⟨L, hknown⟩ := hσ.known hground
  obtain ⟨L', hknown'⟩ := hσ'.known hground
  have hxmain := hknown.of_holds hx
  have hymain := hknown'.of_holds hy
  have hfree := grounded_conflictFree y.form
    (form_mem_grounded hground hknown'.coherent hymain h') x.form
    (form_mem_grounded hground hknown.coherent hxmain h)
  rw [← Argument.attacks_form, Bool.eq_false_iff, ne_eq,
    ← Arena.attacks_iff_deep hground hxmain.2 hymain.2]
  exact hfree

/-- The argument for `~a` rests on `p` and `q`. That for `~p` and that for `p` attack each other,
and nothing is against that for `~q`. -/
def twoPremises : Arena :=
  .ofAtoms .weakestLink [("a", [], .half), ("p", [], .threeQuarters), ("~p", [], .threeQuarters),
    ("q", [], .threeQuarters), ("~q", [], .one), ("~a", ["p", "q"], .threeQuarters)]

/-- The first argument for a literal, if the sceptical dialogue accepts it. -/
theorem Session.exists_accepted (arena : Arena) (g : Term) (m : Nat)
    (h : (Session.first? arena g).any (fun drawn ↦
      (Grounded.defend arena m (.seeded drawn.1) drawn.2).any (·.1.isSome)) = true)
    (hlit : g.isLiteral = true) (hg : g.isGround = true) :
    ∃ seed σ, first? arena g = some (seed, σ) ∧
      ∃ flows drawn d τ, Explored arena σ flows drawn ∧ σ.Holds drawn seed ∧
        Grounded.defend arena m (.seeded seed) σ = some (some d, τ) := by
  obtain ⟨⟨seed, σ⟩, hfirst, hcheck⟩ := (Option.any_eq_true _ _).mp h
  obtain ⟨⟨result, τ⟩, hrun, hsome⟩ := (Option.any_eq_true _ _).mp hcheck
  obtain ⟨d, rfl⟩ := Option.isSome_iff_exists.mp hsome
  obtain ⟨flows, seeds, hreached, hseed⟩ := reached_of_first? hfirst hlit hg
  exact ⟨seed, σ, hfirst, flows, seeds, d, τ, hreached.explored, .inl hseed, hrun⟩

theorem Grounded.twoPremises_peaceful : twoPremises.theory.store.IsGround ∧
    ∃ x σ, Session.first? twoPremises (.const "~q") = some (x, σ) ∧
      ∃ flows drawn d τ, Session.Explored twoPremises σ flows drawn ∧ σ.Holds drawn x ∧
        defend twoPremises 3 (.seeded x) σ = some (some d, τ) ∧
    ∃ y σ', Session.first? twoPremises (.const "a") = some (y, σ') ∧
      ∃ flows' drawn' d' τ', Session.Explored twoPremises σ' flows' drawn' ∧
        σ'.Holds drawn' y ∧ defend twoPremises 3 (.seeded y) σ' = some (some d', τ') ∧
      x.attacks twoPremises.restricted y = false := by
  have hground : twoPremises.theory.store.IsGround := by
    unfold RuleStore.IsGround
    decide +kernel
  obtain ⟨x, σ, hfirst, flows, drawn, d, τ, hσ, hx, h⟩ :=
    Session.exists_accepted twoPremises (.const "~q") 3 (by decide +kernel) rfl rfl
  obtain ⟨y, σ', hfirst', flows', drawn', d', τ', hσ', hy, h'⟩ :=
    Session.exists_accepted twoPremises (.const "a") 3 (by decide +kernel) rfl rfl
  exact ⟨hground, x, σ, hfirst, flows, drawn, d, τ, hσ, hx, h,
    y, σ', hfirst', flows', drawn', d', τ', hσ', hy, h',
    attacks_eq_false_of_defend hground hσ hσ' hx hy h h'⟩

/-- Over a ground store, an argument that the sceptical dialogue accepts is accepted by the
credulous dialogue too, given enough moves, in the same or another session. -/
theorem Preferred.exists_defend_of_grounded (hground : arena.theory.store.IsGround)
    (hσ : Session.Explored arena σ flows drawn) (hσ' : Session.Explored arena σ' flows' drawn')
    {seed seed' : Argument} (hseed : σ.Holds drawn seed) (hseed' : σ'.Holds drawn' seed')
    (hform : seed'.form = seed.form) {m : Nat} {d : Dispute} {τ : Session}
    (h : Grounded.defend arena m (.seeded seed) σ = some (some d, τ)) :
    ∀ moves, arena.mains.length < moves →
      ∃ d' τ', Preferred.defend arena moves (.seeded seed') σ' = some (some d', τ') := by
  classical
  intro moves hmoves
  obtain ⟨L, hknown⟩ := hσ.known hground
  obtain ⟨L', hknown'⟩ := hσ'.known hground
  have hmain := hknown'.of_holds hseed'
  have hg := Grounded.form_mem_grounded hground hknown.coherent (hknown.of_holds hseed) h
  rw [← hform, Arena.attacks_eq_lists hground] at hg
  obtain ⟨r, hr⟩ := Game.Credulous.Harmonious.strategy.exists_defend_eq_some
    (Arena.mains_closed hground) (List.mem_toFinset.mpr hmain.2) hg (.seeded hg)
    (Nat.lt_of_le_of_lt (List.toFinset_card_le _) hmoves)
  have hmirror := Preferred.defend_mirrors hground moves L' σ' _ hknown'.coherent (.seeded hmain)
  exact hmirror.exists_of_eq_some hr

theorem Preferred.twoPremises_accepted : twoPremises.theory.store.IsGround ∧
    ∃ seed σ, Session.first? twoPremises (.const "a") = some (seed, σ) ∧
      ∃ flows drawn d τ, Session.Explored twoPremises σ flows drawn ∧ σ.Holds drawn seed ∧
      Grounded.defend twoPremises 3 (.seeded seed) σ = some (some d, τ) ∧
      ∀ moves, twoPremises.mains.length < moves →
        ∃ d' τ', Preferred.defend twoPremises moves (.seeded seed) σ =
          some (some d', τ') := by
  have hground : twoPremises.theory.store.IsGround := by
    unfold RuleStore.IsGround
    decide +kernel
  obtain ⟨seed, σ, hfirst, flows, drawn, d, τ, hσ, hseed, h⟩ :=
    Session.exists_accepted twoPremises (.const "a") 3 (by decide +kernel) rfl rfl
  exact ⟨hground, seed, σ, hfirst, flows, drawn, d, τ, hσ, hseed, h,
    exists_defend_of_grounded hground hσ hσ hseed hseed rfl h⟩

end Argumentation
