import Argumentation.Proofs.Argument.Denials
import Argumentation.Proofs.Argument.Register
import Argumentation.Proofs.Dialogue.Memory

namespace Argumentation

namespace Arena

variable {arena : Arena} {a : Argument} {L M : Register Argument}

theorem attacks_of_succeeds {y : Argument} {g : Term} {attack : Attack}
    (hg : (g, attack) ∈ a.denials) (h : arena.succeeds y attack = true) :
    y.attacks arena.restricted a = true := by
  rw [Argument.attacks_iff]
  obtain ⟨node, hnode, ⟨-, -, rfl⟩ | ⟨-, -, rfl⟩⟩ := Argument.mem_denials.mp hg
  · exact ⟨node, hnode, attackOn?_isSome_iff.mpr (.inr h)⟩
  · exact ⟨node, hnode, attackOn?_isSome_iff.mpr (.inl h)⟩

/-- Attackers of an argument that have their numbers from the register, each another one. -/
structure Entered (arena : Arena) (a : Argument) (L : Register Argument) (found : Attackers) :
    Prop where
  entered : ∀ e ∈ found.successful, e.attacker.EnteredIn L
  attacks : ∀ e ∈ found.successful, e.attacker.attacks arena.restricted a = true
  distinct : (found.successful.map (·.attacker.id)).Nodup

theorem Entered.none (arena : Arena) (a : Argument) (L : Register Argument) :
    arena.Entered a L .none :=
  ⟨by simp [Attackers.none], by simp [Attackers.none], .nil⟩

theorem Entered.mono {found : Attackers} (h : arena.Entered a L found) (hLM : L ≤ M) :
    arena.Entered a M found :=
  ⟨fun e he ↦ hLM _ _ (h.entered e he), h.attacks, h.distinct⟩

theorem Entered.enter {found : Attackers} (h : arena.Entered a L found) {c : Argument}
    (hc : c.EnteredIn L) {g : Term} {attack : Attack} (hg : (g, attack) ∈ a.denials) :
    arena.Entered a L (arena.enter attack found c) := by
  unfold Arena.enter
  split
  · exact ⟨h.entered, h.attacks, h.distinct⟩
  · rename_i hsucceeds
    split
    · exact h
    · rename_i hnew
      have hattacks : c.attacks arena.restricted a = true :=
        attacks_of_succeeds hg (by simpa using hsucceeds)
      have hc : c.id ∉ found.successful.map (·.attacker.id) := by
        intro hmem
        obtain ⟨e, he, hid⟩ := List.mem_map.mp hmem
        -- An argument of the same number is similar.
        refine hnew (List.any_eq_true.mpr ⟨e, he, ?_⟩)
        rw [Argument.isSimilar_eq, hid, beq_self_eq_true, Bool.true_or]
      refine ⟨?_, ?_, ?_⟩
      · simpa [or_imp, forall_and] using ⟨h.entered, ‹c.EnteredIn L›⟩
      · simpa [or_imp, forall_and] using ⟨h.attacks, hattacks⟩
      · rw [List.map_append, List.map_singleton]
        refine List.nodup_append.mpr ⟨h.distinct, by simp, fun i hi j hj ↦ ?_⟩
        rw [List.mem_singleton.mp hj]
        exact fun heq ↦ hc (heq ▸ hi)

theorem Entered.foldl {found : Attackers} (h : arena.Entered a L found) {cs : List Argument}
    (hcs : ∀ c ∈ cs, c.EnteredIn L) {g : Term} {attack : Attack} (hg : (g, attack) ∈ a.denials) :
    arena.Entered a L (cs.foldl (arena.enter attack) found) := by
  induction cs generalizing found with
  | nil => exact h
  | cons c cs ih => exact ih (h.enter (hcs c (.head _)) hg) fun c' hc' ↦ hcs c' (.tail _ hc')

theorem foldl_denials_entered {ds : List (Term × Attack)} (hds : ds ⊆ a.denials)
    {found : Attackers} {s : Supply} (hfound : arena.Entered a L found)
    (hfree : ∀ id, s.freeArgument ≤ id → L id = none) :
    let result := ds.foldl (fun (found, s) (goal, attack) ↦
      let (candidates, s') := (arena.theory.arguments 0 goal).toList s
      (candidates.foldl (arena.enter attack) found, s')) (found, s)
    ∃ M, L.Continues s.freeArgument M result.2.freeArgument ∧ arena.Entered a M result.1 := by
  induction ds generalizing L found s with
  | nil => exact ⟨L, .refl hfree, hfound⟩
  | cons d ds ih =>
    obtain ⟨K, hK, hentered⟩ := (arena.theory.arguments_registers 0 d.1 L).toList
      Theory.enduring_enteredIn hfree
    have hmem : (d.1, d.2) ∈ a.denials := hds (.head _)
    obtain ⟨M, hM, hresult⟩ := ih (List.subset_of_cons_subset hds)
      ((hfound.mono (hK.extends hfree)).foldl hentered hmem) hK.free
    exact ⟨M, hK.trans hM, hresult⟩

/-- The attackers found for an argument attack it, and have numbers from the first free one on. -/
theorem findAttackers_entered (arena : Arena) (a : Argument) (s : Supply) :
    ∃ L, Register.empty.Continues s.freeArgument L (arena.findAttackers a s).2.freeArgument ∧
      arena.Entered a L (arena.findAttackers a s).1 :=
  foldl_denials_entered (List.Subset.refl _) (.none arena a _) fun _ _ ↦ rfl

theorem Entered.id_mem {n m : ℕ} (hL : Register.empty.Continues n L m) {found : Attackers}
    (h : arena.Entered a L found) {e : AttackerEntry} (he : e ∈ found.successful) :
    n ≤ e.attacker.id ∧ e.attacker.id < m := by
  refine ⟨?_, hL.lt (h.entered e he)⟩
  by_contra hlt
  have hnone := hL.kept _ (Nat.lt_of_not_le hlt)
  rw [h.entered e he] at hnone
  cases hnone

end Arena

end Argumentation
