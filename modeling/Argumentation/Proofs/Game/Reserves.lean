import Argumentation.Proofs.Game.Sceptical
import Mathlib.Data.Nat.Find

namespace Argumentation.Game.Sceptical

open AttackGraph

variable {α : Type} {attackers : α → List α}

def stage (attackers : α → List α) (s : α) : Nat → Set α
  | 0 => ∅
  | n + 1 => {x | ∀ y ∈ attackers x, ∃ z ∈ stage attackers s n, z ∈ attackers y ∧
      Reserved (Lists attackers) (needed (Lists attackers) s) z y x}

variable {s : α}

theorem stage_mono (n : Nat) : stage attackers s n ⊆ stage attackers s (n + 1) := by
  induction n with
  | zero => exact Set.empty_subset _
  | succ n ih =>
    intro x hx y hy
    obtain ⟨z, hz, hzy⟩ := hx y hy
    exact ⟨z, ih hz, hzy⟩

theorem stage_subset_grounded (n : Nat) :
    stage attackers s n ⊆ grounded (Lists attackers) := by
  induction n with
  | zero => exact Set.empty_subset _
  | succ n ih =>
    intro x hx
    refine mem_grounded_of_defends ?_
    rintro x' rfl y hy
    obtain ⟨z, hz, hzy, -⟩ := hx y hy
    exact ⟨z, ih hz, hzy⟩

/-- As each argument has finitely many attackers, a defence by reserves ends after some round. -/
theorem exists_stage_of_mem {x : α}
    (hx : x ∈ groundedByReserves (Lists attackers) (needed (Lists attackers) s)) :
    ∃ n, x ∈ stage attackers s n := by
  refine hx {x | ∃ n, x ∈ stage attackers s n} fun x h ↦ ?_
  have hbound : ∀ ys ⊆ attackers x, ∃ n, ∀ y ∈ ys, ∃ z ∈ stage attackers s n, z ∈ attackers y ∧
      Reserved (Lists attackers) (needed (Lists attackers) s) z y x := by
    intro ys hys
    induction ys with
    | nil => exact ⟨0, by simp⟩
    | cons y ys ih =>
      obtain ⟨hy, hys⟩ := List.cons_subset.mp hys
      obtain ⟨n, hn⟩ := ih hys
      obtain ⟨z, ⟨m, hz⟩, hzy⟩ := h y hy
      have hle {i j : Nat} (hij : i ≤ j) : stage attackers s i ⊆ stage attackers s j :=
        monotone_nat_of_le_succ stage_mono hij
      refine ⟨max m n, List.forall_mem_cons.mpr ⟨⟨z, hle (Nat.le_max_left m n) hz, hzy⟩, ?_⟩⟩
      intro y' hy'
      obtain ⟨z', hz', hzy'⟩ := hn y' hy'
      exact ⟨z', hle (Nat.le_max_right m n) hz', hzy'⟩
  obtain ⟨n, hn⟩ := hbound _ (List.Subset.refl _)
  exact ⟨n + 1, hn⟩

theorem needed_step {x y z : α} (hx : x ∈ needed (Lists attackers) s) (hy : y ∈ attackers x)
    (hz : z ∈ attackers y) (hg : z ∈ grounded (Lists attackers)) : z ∈ needed (Lists attackers) s :=
  ⟨hg, hx.2.step hy hz⟩

/-- A reserve can be had that the attacker does not strike back at: if it struck back, the reserve
against that would be one against it. -/
theorem exists_reserve {n : Nat} {x y : α} (hx : x ∈ stage attackers s (n + 1))
    (hneeded : x ∈ needed (Lists attackers) s) (hy : y ∈ attackers x) :
    ∃ z ∈ stage attackers s n, z ∈ attackers y ∧ y ∉ attackers z ∧
      Reserved (Lists attackers) (needed (Lists attackers) s) z y x := by
  induction n generalizing x with
  | zero =>
    obtain ⟨z, hz, -⟩ := hx y hy
    cases hz
  | succ n ih =>
    obtain ⟨z, hz, hzy, hreserved⟩ := hx y hy
    by_cases hback : y ∈ attackers z
    · have hg := stage_subset_grounded _ hz
      obtain ⟨z', hz', hzy', hback', hreserved'⟩ := ih hz (needed_step hneeded hy hzy hg) hback
      obtain ⟨-, rfl⟩ := hreserved' x hneeded y hy hzy'
      exact ⟨z', stage_mono n hz', hzy', hback', hreserved'⟩
    · exact ⟨z, hz, hzy, hback, hreserved⟩

/-- A board reached while the attackers `ys` of `x` are still to be answered: every argument of the
proponent but the first one has been used against some other attack. -/
structure Ready (attackers : α → List α) (s x : α) (ys : List α) (b : Board α) : Prop where
  needed : ∀ p ∈ b.pro, p ∈ needed (Lists attackers) s
  last : x ∈ b.pro
  used : ∀ p ∈ b.pro, p = s ∨ ∃ x' ∈ b.pro, ∃ y, y ∈ attackers x' ∧ p ∈ attackers y ∧
    (x' = x → y ∉ ys)

namespace Ready

variable {x y z : α} {ys : List α} {b r : Board α}

theorem seeded (h : s ∈ grounded (Lists attackers)) :
    Ready attackers s s (attackers s) (.seeded s) := by
  refine ⟨fun p hp ↦ ?_, .head _, fun p hp ↦ .inl (List.mem_singleton.mp hp)⟩
  rw [List.mem_singleton.mp hp]
  exact ⟨h, .self⟩

theorem reserve_notMem (h : Ready attackers s x (y :: ys) b) (hz : z ∈ attackers y) (hs : z ≠ s)
    (hreserved : Reserved (Lists attackers) (AttackGraph.needed (Lists attackers) s) z y x) :
    z ∉ b.pro := by
  intro hmem
  rcases h.used z hmem with rfl | ⟨x', hx', y', hy', hzy', hused⟩
  · exact hs rfl
  · obtain ⟨rfl, rfl⟩ := hreserved x' (h.needed x' hx') y' hy' hzy'
    exact hused rfl (.head _)

theorem exchange (h : Ready attackers s x ys b) (hy : y ∈ attackers x) (hz : z ∈ attackers y)
    (hnew : z ∉ b.pro) (hg : z ∈ grounded (Lists attackers)) :
    Ready attackers s z (attackers z) (b.exchange y z) := by
  have hne : ∀ x' ∈ b.pro, x' ≠ z := fun x' hx' heq ↦ hnew (heq ▸ hx')
  refine ⟨fun p hp ↦ ?_, by simp, fun p hp ↦ ?_⟩
  · rcases List.mem_append.mp hp with hp | hp
    · exact h.needed p hp
    · rw [List.mem_singleton.mp hp]
      exact needed_step (h.needed x h.last) hy hz hg
  · rcases List.mem_append.mp hp with hp | hp
    · refine (h.used p hp).imp_right ?_
      rintro ⟨x', hx', y', hy', hpy', -⟩
      exact ⟨x', List.mem_append_left _ hx', y', hy', hpy', fun heq ↦ absurd heq (hne x' hx')⟩
    · rw [List.mem_singleton.mp hp]
      exact .inr ⟨x, List.mem_append_left _ h.last, y, hy, hz, fun heq ↦ absurd heq (hne x h.last)⟩

theorem next (h : Ready attackers s x (y :: ys) b) (hy : y ∈ attackers x) (hnodup : y ∉ ys)
    (hz : z ∈ attackers y) (hnew : z ∉ b.pro) (hg : z ∈ grounded (Lists attackers))
    (hgrown : Grown attackers z (b.exchange y z) r) : Ready attackers s x ys r := by
  have hsub : b.pro ⊆ r.pro := (hgrown.of_exchange hy hz hnew hg).subset
  have hx : x ∈ AttackGraph.needed (Lists attackers) s := h.needed x h.last
  obtain ⟨ps, hps, hall⟩ := hgrown
  have hcases : ∀ p ∈ r.pro, p ∈ b.pro ∨ p = z ∨ p ∈ ps := by
    intro p hp
    rw [hps] at hp
    simpa only [Board.exchange_pro, List.mem_append, List.mem_singleton, or_assoc] using hp
  refine ⟨fun p hp ↦ ?_, hsub h.last, fun p hp ↦ ?_⟩
  · rcases hcases p hp with hp | rfl | hp
    · exact h.needed p hp
    · exact needed_step hx hy hz hg
    · obtain ⟨-, hpg, hpdef, -⟩ := hall p hp
      exact ⟨hpg, (hx.2.step hy hz).trans hpdef⟩
  · rcases hcases p hp with hp | rfl | hp
    · refine (h.used p hp).imp_right ?_
      rintro ⟨x', hx', y', hy', hpy', hused⟩
      exact ⟨x', hsub hx', y', hy', hpy', fun heq hmem ↦ hused heq (.tail _ hmem)⟩
    · exact .inr ⟨x, hsub h.last, y, hy, hz, fun _ ↦ hnodup⟩
    · obtain ⟨-, -, -, x', hx', y', hy', hpy'⟩ := hall p hp
      have hmem : x' ∈ r.pro ∧ x' ∉ b.pro := by
        rw [hps]
        rcases List.mem_cons.mp hx' with rfl | hx'
        · exact ⟨by simp, hnew⟩
        · exact ⟨by simp [hx'], fun hb ↦ (hall x' hx').1 (List.mem_append_left _ hb)⟩
      exact .inr ⟨x', hmem.1, y', hy', hpy', fun heq ↦ absurd (heq ▸ h.last) hmem.2⟩

end Ready

variable [DecidableEq α]

theorem firstDefence_ne_some_none {defend : Board α → Result α} {b : Board α} {y z : α}
    (hnew : z ∉ b.pro) (hback : y ∉ attackers z) (hd : defend (b.exchange y z) ≠ some none)
    {zs : List α} (hz : z ∈ zs) : firstDefence attackers defend b y zs ≠ some none := by
  induction zs with
  | nil => cases hz
  | cons z' zs ih =>
    rw [firstDefence]
    rcases List.mem_cons.mp hz with rfl | hz
    · rw [if_neg (not_or.mpr ⟨hnew, hback⟩)]
      split
      · simp
      · contradiction
      · simp
    · split
      · exact ih hz
      · split
        · simp
        · exact ih hz
        · simp

section Answers

variable {x : α} {defend : Board α → Result α} {n : Nat}

def Reliable (attackers : α → List α) (s : α) (n : Nat) (defend : Board α → Result α) : Prop :=
  ∀ z ∈ stage attackers s n, ∀ b : Board α, b.pro.getLast? = some z →
    Ready attackers s z (attackers z) b → defend b ≠ some none

theorem answerAll_ne_some_none (hsound : Sound attackers defend)
    (hd : Reliable attackers s n defend) (hs : s ∉ stage attackers s n)
    (hx : x ∈ stage attackers s (n + 1)) {ys : List α} (hys : ys ⊆ attackers x)
    (hnodup : ys.Nodup) {b : Board α} (hb : Ready attackers s x ys b) :
    answerAll attackers defend ys b ≠ some none := by
  induction ys generalizing b with
  | nil => simp [answerAll]
  | cons y ys ih =>
    obtain ⟨hy, hys⟩ := List.cons_subset.mp hys
    obtain ⟨hnotMem, hnodup⟩ := List.nodup_cons.mp hnodup
    obtain ⟨z, hz, hzy, hback, hreserved⟩ := exists_reserve hx (hb.needed x hb.last) hy
    have hne : z ≠ s := fun heq ↦ hs (heq ▸ hz)
    have hnew := hb.reserve_notMem hzy hne hreserved
    have hready := hb.exchange hy hzy hnew (stage_subset_grounded n hz)
    have hdefend := hd z hz (b.exchange y z) (by simp) hready
    have hfirst := firstDefence_ne_some_none hnew hback hdefend hzy
    rw [answerAll]
    split
    -- The defence found need not be that of the reserve `z`; the board is ready after any.
    · rename_i r hr
      obtain ⟨z', hz', hnew', hg', hgrown⟩ := firstDefence_sound hsound (List.Subset.refl _) hr
      exact ih hys hnodup (hb.next hy hnotMem hz' hnew' hg' hgrown)
    · contradiction
    · simp

end Answers

theorem defend_reliable (hnodup : ∀ x, (attackers x).Nodup) (moves : Nat) {n : Nat}
    (hs : ∀ m < n, s ∉ stage attackers s m) :
    Reliable attackers s n (defend attackers moves) := by
  induction moves generalizing n with
  | zero => exact fun _ _ _ _ _ ↦ by simp [defend]
  | succ moves ih =>
    intro x hx b hlast hb
    cases n with
    | zero => cases hx
    | succ n =>
      simp only [defend, hlast]
      exact answerAll_ne_some_none (defend_sound moves) (ih fun m hm ↦ hs m (by omega))
        (hs n (by omega)) hx (List.Subset.refl _) (hnodup x) hb

/-- With enough moves the dialogue accepts an argument that is grounded by reserves. -/
theorem exists_defend_eq_some {U : Finset α} (hU : ∀ x ∈ U, ∀ y ∈ attackers x, y ∈ U)
    (hnodup : ∀ x, (attackers x).Nodup) (hs : s ∈ U)
    (h : s ∈ groundedByReserves (Lists attackers) (needed (Lists attackers) s)) {moves : Nat}
    (hmoves : U.card < moves) : ∃ r, defend attackers moves (.seeded s) = some (some r) := by
  obtain ⟨n, hn⟩ := exists_stage_of_mem h
  classical
  -- Below the first stage with `s`, no reserve is `s` itself.
  have hleast := Nat.find_spec (⟨n, hn⟩ : ∃ n, s ∈ stage attackers s n)
  have hready := Ready.seeded (stage_subset_grounded _ hleast)
  have hanswer := defend_reliable hnodup moves (fun m hm ↦ Nat.find_min ⟨n, hn⟩ hm) s hleast
    (.seeded s) rfl hready
  have hends := defend_seeded_ne_none hU hs hmoves
  rcases hr : defend attackers moves (.seeded s) with _ | _ | r
  · contradiction
  · contradiction
  · exact ⟨r, rfl⟩

end Argumentation.Game.Sceptical
