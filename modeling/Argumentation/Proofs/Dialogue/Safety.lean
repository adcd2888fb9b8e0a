import Argumentation.Proofs.Dialogue.Provenance

namespace Argumentation

variable {arena : Arena} {L : Register Argument} {a : Argument} {σ τ : Session}

theorem Arena.FoundFor.successful_eq_nil {v : Valuation} {found : Attackers}
    (h : arena.FoundFor L a found) (hvalued : a.IsValued v) (hstrict : a.IsStrict) :
    found.successful = [] := by
  refine List.eq_nil_iff_forall_not_mem.mpr fun e he ↦ ?_
  have hattacks := h.attacks e he
  rw [Argument.attacks, hvalued.deepAttack?_eq_none hstrict] at hattacks
  cases hattacks

theorem Search.attackersOf_of_isStrict (hσ : σ.Registered arena L)
    (ha : arena.theory.Registered L a) (hstrict : a.IsStrict) :
    ∃ τ, attackersOf arena a σ = some ([], τ) := by
  obtain ⟨found, τ, M, hrun, -, -, hfound⟩ := attackersOf_registered hσ ha
  exact ⟨τ, by rw [hrun, hfound.successful_eq_nil ha.isValued hstrict]⟩

theorem Semantics.defend_of_attackersOf_nil (semantics : Semantics)
    (h : Search.attackersOf arena a σ = some ([], τ)) (moves : ℕ) :
    semantics.defend arena (moves + 1) (.seeded a) σ =
      some (some (.seeded a), { τ with proof := τ.proof.setStatus a .undefeated }) := by
  cases semantics with
  | grounded => exact Search.bind_eq_some.mpr ⟨[], τ, h, rfl⟩
  | preferredCredulous => exact Search.bind_eq_some.mpr ⟨[], τ, h, rfl⟩

/-- Arguments that a session has at hand are strict just when they have the greatest strength. No
argument attacks a strict one, and either dialogue accepts it. -/
theorem Session.Reachable.strict_unassailable {flows : List (Flow ArgumentList)}
    {drawn : List Argument} (h : σ.Reachable arena flows drawn) (ha : σ.HoldsNode drawn a) :
    (a.strength = .one ↔ a.IsStrict) ∧
      (a.IsStrict → (∀ restricted (b : Argument), b.deepAttack? restricted a = none) ∧
        (∃ τ, Search.attackersOf arena a σ = some ([], τ)) ∧
        ∀ (semantics : Semantics) moves, 0 < moves →
          ∃ τ, semantics.evaluate arena moves a σ = some (some (.seeded a), τ) ∧
            τ.proof.status a = .undefeated) := by
  obtain ⟨L, htraced⟩ := h.traced
  have hregistered := htraced.of_holdsNode ha
  refine ⟨hregistered.isValued.strength_eq_one_iff, fun hstrict ↦ ⟨?_, ?_, ?_⟩⟩
  · exact hregistered.isValued.deepAttack?_eq_none hstrict
  · exact Search.attackersOf_of_isStrict htraced.session hregistered hstrict
  · intro semantics moves hmoves
    obtain ⟨n, rfl⟩ := Nat.exists_eq_succ_of_ne_zero (Nat.ne_of_gt hmoves)
    have hrecorded : Session.Registered arena L { σ with proof := σ.proof.record a } :=
      htraced.session.congr (Search.record_attackers σ.proof a) rfl
    obtain ⟨τ, hrun⟩ := Search.attackersOf_of_isStrict hrecorded hregistered hstrict
    refine ⟨_, Search.bind_eq_some.mpr ⟨(), _, rfl, semantics.defend_of_attackersOf_nil hrun n⟩, ?_⟩
    simp [Proof.status, Proof.setStatus]

def strictStep : Arena where
  theory :=
    { store := (Engine.default.addAll
        [.plain (.app (.name "p") [.var ⟨"X", 1⟩])
            [.app (.name "q") [.var ⟨"X", 1⟩],
              .app (.op (.comparison .less)) [.var ⟨"X", 1⟩, .num (.int 5)]] .one,
          .plain (.app (.name "q") [.num (.int 3)]) [] .one,
          .plain (.app (.name "~p") [.var ⟨"Y", 2⟩]) [] .half]).2.store
      valuation := .lastLink
      maxDepth := Settings.default.maxDepth }
  restricted := false

theorem strictStep_unassailable : ∃ a σ flows drawn,
    Session.first? strictStep (.app (.name "p") [.num (.int 3)]) = some (a, σ) ∧
    Session.Reachable strictStep σ flows drawn ∧ σ.HoldsNode drawn a ∧ a.IsStrict ∧
    a.strength = .one ∧ (∀ restricted (b : Argument), b.deepAttack? restricted a = none) ∧
    (∃ τ, Search.attackersOf strictStep a σ = some ([], τ)) ∧
    ∀ semantics : Semantics, ∃ τ,
      semantics.evaluate strictStep 1 a σ = some (some (.seeded a), τ) ∧
        τ.proof.status a = .undefeated := by
  have hcheck : (Session.first? strictStep (.app (.name "p") [.num (.int 3)])).any (fun (a, _) ↦
      a.subtree.all (·.rule.isStrict)) = true := by
    decide +kernel
  obtain ⟨⟨a, σ⟩, hfirst, hstrict⟩ := (Option.any_eq_true _ _).mp hcheck
  have hstrict : a.IsStrict := List.all_eq_true.mp hstrict
  obtain ⟨flows, drawn, hreachable, hdrawn⟩ := Session.reachable_of_first? hfirst
  have ha : σ.HoldsNode drawn a := ⟨a, .inl hdrawn, a.self_mem_subtree⟩
  obtain ⟨hone, hsafe⟩ := hreachable.strict_unassailable ha
  obtain ⟨hattack, hattackers, haccept⟩ := hsafe hstrict
  exact ⟨a, σ, flows, drawn, hfirst, hreachable, ha, hstrict, hone.mpr hstrict, hattack, hattackers,
    fun semantics ↦ haccept semantics 1 Nat.one_pos⟩

end Argumentation
