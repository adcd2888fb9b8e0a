import Argumentation.Proofs.Game.Strategy

namespace Argumentation.Game.Credulous

open AttackGraph

variable {α : Type} {attackers : α → List α} {x y z : α} {b b' : Board α}

/-- A board on which the proponent's arguments do not conflict, and each of them is grounded or has
all its attackers answered. -/
structure Harmonious (attackers : α → List α) (b : Board α) : Prop where
  balanced : Balanced attackers b
  conflictFree : ConflictFree (Lists attackers) {p | p ∈ b.pro}
  settled : ∀ p ∈ b.pro, p ∈ grounded (Lists attackers) ∨ attackers p ⊆ b.opp

namespace Harmonious

theorem seeded (h : x ∈ grounded (Lists attackers)) : Harmonious attackers (.seeded x) := by
  refine ⟨.seeded x, fun p hp q hq ↦ ?_, fun p hp ↦ .inl ?_⟩
  · rw [List.mem_singleton.mp hp, List.mem_singleton.mp hq]
    exact grounded_conflictFree x h x h
  · rw [List.mem_singleton.mp hp]
    exact h

theorem admissible (h : Harmonious attackers b) :
    Admissible (Lists attackers) ({p | p ∈ b.pro} ∪ grounded (Lists attackers)) := by
  refine admissible_union_grounded h.conflictFree fun p hp y hyp ↦ ?_
  rcases h.settled p hp with hg | hopp
  · obtain ⟨z, hz, hzy⟩ := defends_of_mem_grounded hg p rfl y hyp
    exact ⟨z, .inr hz, hzy⟩
  · obtain ⟨z, hz, hzy⟩ := h.balanced.attacked y (hopp hyp)
    exact ⟨z, .inl hz, hzy⟩

theorem concede (h : Harmonious attackers b) (hy : y ∉ b.pro) {p : α} (hp : p ∈ b.pro)
    (hpy : p ∈ attackers y) : Harmonious attackers (b.concede y) := by
  refine ⟨h.balanced.concede hy hp hpy, h.conflictFree, fun q hq ↦ ?_⟩
  exact (h.settled q hq).imp_right fun hopp ↦
    List.Subset.trans hopp (List.subset_append_left _ _)

theorem exchange (h : Harmonious attackers b) (hx : x ∈ b.pro) (hyx : y ∈ attackers x)
    (hz : z ∈ grounded (Lists attackers)) (hzy : z ∈ attackers y) :
    z ∉ b.opp ∧ ¬ Conflicts attackers z b.pro ∧ Harmonious attackers (b.exchange y z) := by
  obtain ⟨hfree, -⟩ := h.admissible
  have hy : y ∉ b.pro := fun hy ↦ h.conflictFree x hx y hy hyx
  have hopp : z ∉ b.opp := by
    intro hmem
    obtain ⟨p, hp, hpz⟩ := h.balanced.attacked z hmem
    exact hfree z (.inr hz) p (.inl hp) hpz
  have hpeace : ¬ Conflicts attackers z b.pro := by
    rintro ⟨p, hp, hzp | hpz⟩
    · exact hfree p (.inl hp) z (.inr hz) hzp
    · exact hfree z (.inr hz) p (.inl hp) hpz
  have hsub : ∀ p ∈ (b.exchange y z).pro, p ∈ {p | p ∈ b.pro} ∪ grounded (Lists attackers) := by
    intro p hp
    rcases List.mem_append.mp hp with hp | hp
    · exact .inl hp
    · exact .inr (List.mem_singleton.mp hp ▸ hz)
  refine ⟨hopp, hpeace, h.balanced.exchange hx hyx hy hzy hopp hpeace,
    fun p hp q hq ↦ hfree p (hsub p hp) q (hsub q hq), fun p hp ↦ ?_⟩
  rcases List.mem_append.mp hp with hp | hp
  · exact (h.settled p hp).imp_right fun hopp ↦
      List.Subset.trans hopp (List.subset_append_left _ _)
  · exact .inl (List.mem_singleton.mp hp ▸ hz)

/-- The arguments that a defence adds are answered within it, so the board stays harmonious. -/
theorem grown (h : Harmonious attackers b) (hgrown : Grown attackers z b b') :
    Harmonious attackers b' := by
  refine ⟨hgrown.balanced, hgrown.conflictFree h.conflictFree, fun p hp ↦ ?_⟩
  by_cases hmem : p ∈ b.pro
  · exact (h.settled p hmem).imp_right fun hopp ↦ List.Subset.trans hopp hgrown.opp
  · exact .inr (hgrown.answered p hp hmem)

/-- The proponent of a grounded argument can defend it by grounded arguments. -/
theorem strategy : Strategy attackers (grounded (Lists attackers)) (Harmonious attackers) := by
  refine ⟨balanced, fun hb hx hyx hy ↦ hb.conflictFree _ hx _ hy hyx,
    fun hb hy hp hpy ↦ hb.concede hy hp hpy, fun hb hx hg hyx _ ↦ ?_⟩
  obtain ⟨z, hz, hzy⟩ := defends_of_mem_grounded hg _ rfl _ hyx
  obtain ⟨hopp, hpeace, hnext⟩ := hb.exchange hx hyx hz hzy
  exact ⟨z, hzy, hz, hopp, hpeace, hnext, fun hgrown _ ↦ hnext.grown hgrown⟩

end Harmonious

end Argumentation.Game.Credulous
