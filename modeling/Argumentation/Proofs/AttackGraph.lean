import Mathlib.Data.Set.Basic

namespace Argumentation.AttackGraph

variable {α : Type} (R : α → α → Prop)

def Defends (S T : Set α) : Prop :=
  ∀ x ∈ T, ∀ y, R y x → ∃ z ∈ S, R z y

def ConflictFree (S : Set α) : Prop :=
  ∀ x ∈ S, ∀ y ∈ S, ¬ R y x

def Admissible (S : Set α) : Prop :=
  ConflictFree R S ∧ Defends R S S

/-- The least set that has all members whose every attacker it attacks. -/
def grounded : Set α :=
  {x | ∀ S : Set α, (∀ x, Defends R S {x} → x ∈ S) → x ∈ S}

def Reserved (E : Set α) (z y x : α) : Prop :=
  ∀ x' ∈ E, ∀ y', R y' x' → R z y' → y' = y ∧ x' = x

/-- The least set that has all members to whose every attacker it has a defender reserved for this
attack. -/
def groundedByReserves (E : Set α) : Set α :=
  {x | ∀ S : Set α, (∀ x, (∀ y, R y x → ∃ z ∈ S, R z y ∧ Reserved R E z y x) → x ∈ S) → x ∈ S}

inductive Defender (a : α) : α → Prop
  | self : Defender a a
  | step {x y z : α} : Defender a x → R y x → R z y → Defender a z

/-- The grounded arguments that a defence of `s` may put forward. -/
def needed (s : α) : Set α :=
  {p | p ∈ grounded R ∧ Defender R s p}

def Tenable (P : Set α) : Prop :=
  ∃ A, Admissible R A ∧ P ⊆ A

/-- However one of the defenders of `s` among tenable arguments is defended by itself, the arguments
stay tenable. -/
def Resilient (s : α) : Prop :=
  ∀ P N : Set α, ∀ a ∈ P, a ≠ s → s ∈ P → P ⊆ {p | Defender R s p} → Tenable R P →
    N ⊆ {p | Defender R a p} → ConflictFree R (P ∪ N) → Defends R (P ∪ N) (insert a N) →
    Tenable R (P ∪ N)

variable {R}

theorem Tenable.conflictFree {P : Set α} (h : Tenable R P) : ConflictFree R P := by
  obtain ⟨A, hA, hPA⟩ := h
  exact fun x hx y hy ↦ hA.1 x (hPA hx) y (hPA hy)

theorem Defends.mono {S S' T T' : Set α} (h : Defends R S T) (hS : S ⊆ S') (hT : T' ⊆ T) :
    Defends R S' T' := by
  intro x hx y hy
  obtain ⟨z, hz, hzy⟩ := h x (hT hx) y hy
  exact ⟨z, hS hz, hzy⟩

theorem mem_grounded_of_defends {x : α} (h : Defends R (grounded R) {x}) : x ∈ grounded R := by
  intro S hS
  have hsub : grounded R ⊆ S := fun z hz ↦ hz S hS
  exact hS x (h.mono hsub subset_rfl)

theorem defends_of_mem_grounded {x : α} (h : x ∈ grounded R) : Defends R (grounded R) {x} := by
  refine h {x | Defends R (grounded R) {x}} fun x hx ↦ ?_
  have hsub : {x | Defends R (grounded R) {x}} ⊆ grounded R := fun z ↦ mem_grounded_of_defends
  exact hx.mono hsub subset_rfl

/-- What follows for a grounded argument if it holds of its grounded defenders, holds of all. -/
theorem grounded_induction {p : α → Prop}
    (h : ∀ x ∈ grounded R, (∀ y, R y x → ∃ z ∈ grounded R, p z ∧ R z y) → p x) :
    ∀ x ∈ grounded R, p x := by
  intro x hx
  refine (hx {x | x ∈ grounded R ∧ p x} fun x hdef ↦ ?_).2
  have hsub : {x | x ∈ grounded R ∧ p x} ⊆ grounded R := fun _ hz ↦ hz.1
  have hx : x ∈ grounded R := mem_grounded_of_defends (hdef.mono hsub subset_rfl)
  refine ⟨hx, h x hx fun y hy ↦ ?_⟩
  obtain ⟨z, ⟨hz, hpz⟩, hzy⟩ := hdef x rfl y hy
  exact ⟨z, hz, hpz, hzy⟩

theorem grounded_conflictFree : ConflictFree R (grounded R) := by
  refine grounded_induction fun x _ ih y hy hyx ↦ ?_
  obtain ⟨z, -, hfree, hzy⟩ := ih y hyx
  -- The attacker is grounded itself, so its attacker `z` would be attacked in its turn.
  obtain ⟨w, hw, hwz⟩ := defends_of_mem_grounded hy y rfl z hzy
  exact hfree w hw hwz

/-- Arguments without conflict that defend themselves with the help of grounded ones are admissible
together with all grounded arguments. -/
theorem admissible_union_grounded {P : Set α} (hfree : ConflictFree R P)
    (hdef : Defends R (P ∪ grounded R) P) : Admissible R (P ∪ grounded R) := by
  have hout : ∀ g ∈ grounded R, ∀ p ∈ P, ¬ R p g := by
    refine grounded_induction fun g _ ih p hp hpg ↦ ?_
    obtain ⟨z, hz, hsafe, hzp⟩ := ih p hpg
    obtain ⟨w, hw | hw, hwz⟩ := hdef p hp z hzp
    · exact hsafe w hw hwz
    · exact grounded_conflictFree z hz w hw hwz
  have hin : ∀ p ∈ P, ∀ g ∈ grounded R, ¬ R g p := by
    intro p hp g hg hgp
    obtain ⟨w, hw | hw, hwg⟩ := hdef p hp g hgp
    · exact hout g hg w hw hwg
    · exact grounded_conflictFree g hg w hw hwg
  refine ⟨?_, ?_⟩
  · rintro x (hx | hx) y (hy | hy)
    · exact hfree x hx y hy
    · exact hin x hx y hy
    · exact hout x hx y hy
    · exact grounded_conflictFree x hx y hy
  · rintro x (hx | hx) y hyx
    · exact hdef x hx y hyx
    · obtain ⟨z, hz, hzy⟩ := defends_of_mem_grounded hx x rfl y hyx
      exact ⟨z, .inr hz, hzy⟩

theorem Defender.trans {a b c : α} (hab : Defender R a b) (hbc : Defender R b c) :
    Defender R a c := by
  induction hbc with
  | self => exact hab
  | step _ hyx hzy ih => exact ih.step hyx hzy

/-- A set that has all attackers of its members has all defenders of them. -/
theorem Defender.mem_of_closed {S : Set α} (hS : ∀ x ∈ S, ∀ y, R y x → y ∈ S) {a b : α}
    (hab : Defender R a b) (ha : a ∈ S) : b ∈ S := by
  induction hab with
  | self => exact ha
  | step _ hyx hzy ih => exact hS _ (hS _ ih _ hyx) _ hzy

end Argumentation.AttackGraph
