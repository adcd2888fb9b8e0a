import Argumentation.Proofs.Dialogue.Conduct
import Argumentation.Proofs.Dialogue.Replay
import Argumentation.Proofs.Dialogue.Tandem

namespace Argumentation

theorem Flow.le_toList {α : Type} (f : Flow α) (s : Supply) : s ≤ (f.toList s).2 := by
  induction f generalizing s with
  | done => exact s.le_refl
  | yield a rest ih => exact ih () s
  | takeVariables n next ih => exact Supply.le_trans (s.le_takeVariables n) (ih _ _)
  | takeArgument next ih => exact Supply.le_trans s.le_takeArgument (ih _ _)

theorem Arena.le_findAttackers (arena : Arena) (a : Argument) (s : Supply) :
    s ≤ (arena.findAttackers a s).2 := by
  have hfold (ds : List (Term × Attack)) (x : Attackers × Supply) :
      x.2 ≤ (ds.foldl arena.collect x).2 := by
    induction ds generalizing x with
    | nil => exact x.2.le_refl
    | cons d ds ih =>
      have hcollect : x.2 ≤ (arena.collect x d).2 :=
        Flow.le_toList (arena.theory.arguments 0 d.1) x.2
      exact Supply.le_trans hcollect (ih _)
  exact hfold a.denials (.none, s)

/-- The second session remembers all attackers that the first one does, and numbers that were taken
in the first one are not free in it. -/
structure Session.Precedes (σ τ : Session) : Prop where
  within : σ.Within τ
  supply : σ.supply ≤ τ.supply

namespace Session

instance : IsPreorder Session Precedes where
  refl σ := ⟨.refl σ, σ.supply.le_refl⟩
  trans _ _ _ h h' := ⟨h.within.trans h'.within, Supply.le_trans h.supply h'.supply⟩

theorem precedes_of_eq {σ τ : Session} (hattackers : τ.proof.attackers = σ.proof.attackers)
    (hsupply : τ.supply = σ.supply) : σ.Precedes τ :=
  ⟨fun id found hf ↦ by rwa [hattackers], hsupply ▸ σ.supply.le_refl⟩

end Session

namespace Search

open Session (Precedes)

variable {α β : Type} {arena : Arena}

def Recalls (m : Search α) : Prop :=
  ∀ σ r τ, m σ = some (r, τ) → Replays Precedes m σ r τ

namespace Recalls

theorem pure (r : α) : Recalls (pure r : Search α) := by
  intro σ r' τ hrun
  obtain ⟨rfl, rfl⟩ := pure_eq_some.mp hrun
  exact .pure r

theorem bind {m : Search α} {k : α → Search β} (hm : Recalls m) (hk : ∀ r, Recalls (k r)) :
    Recalls (m >>= k) := by
  intro σ r τ hrun
  obtain ⟨a, ρ, h₁, h₂⟩ := bind_eq_some.mp hrun
  exact (hm σ a ρ h₁).bind (hk a ρ r τ h₂)

theorem quiet {u : Search Unit} (hu : u.Quiet) : Recalls u := by
  intro σ r τ hrun
  obtain ⟨τ', hrun', hattackers, hsupply⟩ := hu σ
  rw [hrun] at hrun'
  cases hrun'
  refine ⟨Session.precedes_of_eq hattackers hsupply, fun ρ _ ↦ ?_⟩
  obtain ⟨ρ', hrun', hattackers', hsupply'⟩ := hu ρ
  exact ⟨ρ', hrun', Session.precedes_of_eq hattackers' hsupply',
    Session.precedes_of_eq hattackers'.symm hsupply'.symm⟩

theorem attackersOf (a : Argument) : Recalls (attackersOf arena a) := by
  have hknown {ρ : Session} {found : Attackers} (h : ρ.proof.attackers.lookup a.id = some found) :
      ∃ ρ', Search.attackersOf arena a ρ = some (found.successful, ρ') ∧ ρ.Precedes ρ' ∧
        ρ'.Precedes ρ :=
    ⟨ρ, attackersOf_known h, refl_of Precedes ρ, refl_of Precedes ρ⟩
  intro σ es τ hrun
  cases hl : σ.proof.attackers.lookup a.id with
  | some found =>
    rw [attackersOf_known hl] at hrun
    cases hrun
    exact ⟨refl_of Precedes σ, fun ρ hρ ↦ hknown (hρ.within _ _ hl)⟩
  | none =>
    rw [attackersOf_new hl] at hrun
    cases hrun
    refine ⟨⟨within_looked hl, arena.le_findAttackers a σ.supply⟩, fun ρ hρ ↦ ?_⟩
    exact hknown (hρ.within _ _ (lookup_looked_self a))

theorem conduct :
    Conduct arena (fun _ _ : Unit ↦ True) (fun _ _ ↦ True) (fun _ _ ↦ Recalls) where
  known _ h := h
  pure _ := .pure
  bind := .bind
  outOfMoves _ _ _ _ _ hrun := by cases hrun
  quiet := .quiet
  attackersOf _ hk := (Recalls.attackersOf _).bind fun es ↦ hk () es trivial fun _ _ ↦ trivial

end Recalls

end Search

theorem Semantics.evaluate_recalls (semantics : Semantics) (arena : Arena) (moves : ℕ)
    (a : Argument) : (semantics.evaluate arena moves a).Recalls :=
  .bind (.quiet (Search.record_quiet a)) fun _ ↦
    defend_seeded Search.Recalls.conduct (w := ()) semantics moves trivial

end Argumentation
