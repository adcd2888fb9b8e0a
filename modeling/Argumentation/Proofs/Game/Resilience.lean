import Argumentation.Proofs.Game.Strategy

namespace Argumentation.Game.Credulous

open AttackGraph

variable {α : Type} {attackers : α → List α} {s x y z : α} {b b' : Board α}

/-- A board on which the proponent's arguments are defenders of `s` and tenable together. -/
structure Steady (attackers : α → List α) (s : α) (b : Board α) : Prop where
  balanced : Balanced attackers b
  seed : s ∈ b.pro
  defender : ∀ p ∈ b.pro, Defender (Lists attackers) s p
  tenable : Tenable (Lists attackers) {p | p ∈ b.pro}

namespace Steady

theorem seeded (h : Tenable (Lists attackers) {s}) : Steady attackers s (.seeded s) := by
  have hpro : {p | p ∈ (Board.seeded s).pro} = {s} := by
    ext p
    simp [Board.seeded]
  refine ⟨.seeded s, .head _, fun p hp ↦ ?_, hpro ▸ h⟩
  rw [List.mem_singleton.mp hp]
  exact .self

theorem concede (h : Steady attackers s b) (hy : y ∉ b.pro) {p : α} (hp : p ∈ b.pro)
    (hpy : p ∈ attackers y) : Steady attackers s (b.concede y) :=
  ⟨h.balanced.concede hy hp hpy, h.seed, h.defender, h.tenable⟩

/-- Against an attacker that is not yet attacked there is an answer that keeps the board steady. -/
theorem exists_answer (h : Steady attackers s b) (hx : x ∈ b.pro) (hyx : y ∈ attackers x)
    (hy : y ∉ b.pro) : ∃ z ∈ attackers y, z ∉ b.opp ∧ ¬ Conflicts attackers z b.pro ∧
      Steady attackers s (b.exchange y z) := by
  obtain ⟨A, ⟨hfree, hdefends⟩, hsub⟩ := h.tenable
  obtain ⟨z, hzA, hzy⟩ := hdefends x (hsub hx) y hyx
  have hopp : z ∉ b.opp := by
    intro hz
    obtain ⟨p, hp, hpz⟩ := h.balanced.attacked z hz
    exact hfree z hzA p (hsub hp) hpz
  have hpeace : ¬ Conflicts attackers z b.pro := by
    rintro ⟨p, hp, hzp | hpz⟩
    · exact hfree p (hsub hp) z hzA hzp
    · exact hfree z hzA p (hsub hp) hpz
  refine ⟨z, hzy, hopp, hpeace, h.balanced.exchange hx hyx hy hzy hopp hpeace,
    List.mem_append_left _ h.seed, fun p hp ↦ ?_, A, ⟨hfree, hdefends⟩, fun p hp ↦ ?_⟩
  all_goals rcases List.mem_append.mp hp with hp | hp
  · exact h.defender p hp
  · rw [List.mem_singleton.mp hp]
    exact (h.defender x hx).step hyx hzy
  · exact hsub hp
  · rw [List.mem_singleton.mp hp]
    exact hzA

/-- If `s` is resilient, the defence of another argument keeps the board steady. -/
theorem grown (hres : Resilient (Lists attackers) s) (h : Steady attackers s b) (hz : z ∈ b.pro)
    (hne : z ≠ s) (hgrown : Grown attackers z b b') (hanswered : attackers z ⊆ b'.opp) :
    Steady attackers s b' := by
  have hunion : {p | p ∈ b'.pro} = {p | p ∈ b.pro} ∪ {p | p ∈ b'.pro ∧ p ∉ b.pro} := by
    ext p
    simp only [Set.mem_union, Set.mem_ofPred_eq]
    have hkept := @hgrown.pro p
    tauto
  refine ⟨hgrown.balanced, hgrown.pro h.seed, fun p hp ↦ ?_, ?_⟩
  · by_cases hmem : p ∈ b.pro
    · exact h.defender p hmem
    · exact (h.defender z hz).trans (hgrown.defender p hp hmem)
  · rw [hunion]
    refine hres _ _ z hz hne h.seed h.defender h.tenable
      (fun p hp ↦ hgrown.defender p hp.1 hp.2) ?_ ?_
    all_goals rw [← hunion]
    · exact hgrown.conflictFree h.tenable.conflictFree
    · rintro p (rfl | ⟨hp, hnew⟩) q hqp
      · exact hgrown.balanced.attacked q (hanswered hqp)
      · exact hgrown.balanced.attacked q (hgrown.answered p hp hnew hqp)

theorem strategy (hres : Resilient (Lists attackers) s) :
    Strategy attackers Set.univ (Steady attackers s) := by
  refine ⟨fun hb ↦ hb.balanced, fun hb hx hyx hy ↦ hb.tenable.conflictFree _ hx _ hy hyx,
    fun hb hy hp hpy ↦ hb.concede hy hp hpy, fun {b x y} hb hx _ hyx hfree ↦ ?_⟩
  have hy : y ∉ b.pro := fun hy ↦ hb.tenable.conflictFree x hx y hy hyx
  obtain ⟨z, hzy, hopp, hpeace, hsteady⟩ := hb.exists_answer hx hyx hy
  -- If `s` attacked `y`, the attack would have been answered for free.
  have hne : z ≠ s := fun heq ↦ hfree s hb.seed (heq ▸ hzy)
  refine ⟨z, hzy, Set.mem_univ z, hopp, hpeace, hsteady, fun hgrown hanswered ↦ ?_⟩
  exact hsteady.grown hres (List.mem_append_right _ (.head _)) hne hgrown hanswered

end Steady

variable [DecidableEq α]

/-- With enough moves the dialogue accepts an argument that is tenable and resilient. -/
theorem exists_defend_eq_some {U : Finset α} (hU : ∀ x ∈ U, ∀ y ∈ attackers x, y ∈ U)
    (hs : s ∈ U) (h : Tenable (Lists attackers) {s}) (hres : Resilient (Lists attackers) s)
    {moves : Nat} (hmoves : U.card < moves) :
    ∃ r, defend attackers moves (.seeded s) = some (some r) :=
  (Steady.strategy hres).exists_defend_eq_some hU hs (Set.mem_univ s) (.seeded h) hmoves

end Argumentation.Game.Credulous
