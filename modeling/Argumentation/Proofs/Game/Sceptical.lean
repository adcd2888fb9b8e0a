import Argumentation.Proofs.Game.Basic

namespace Argumentation.Game.Sceptical

open AttackGraph

variable {α : Type} {attackers : α → List α}

/-- What a defence of `x` adds to the proponent's arguments: grounded defenders of `x`, each new and
each against an attacker of `x` or of another one that was added. -/
def Grown (attackers : α → List α) (x : α) (b r : Board α) : Prop :=
  ∃ ps, r.pro = b.pro ++ ps ∧ ∀ p ∈ ps, p ∉ b.pro ∧ p ∈ grounded (Lists attackers) ∧
    Defender (Lists attackers) x p ∧ ∃ x' ∈ x :: ps, ∃ y, y ∈ attackers x' ∧ p ∈ attackers y

theorem Grown.refl (x : α) (b : Board α) : Grown attackers x b b :=
  ⟨[], by simp, by simp⟩

theorem Grown.trans {x : α} {b r r' : Board α} (h : Grown attackers x b r)
    (h' : Grown attackers x r r') : Grown attackers x b r' := by
  obtain ⟨ps, hps, hall⟩ := h
  obtain ⟨qs, hqs, hall'⟩ := h'
  refine ⟨ps ++ qs, by rw [hqs, hps, List.append_assoc], fun p hp ↦ ?_⟩
  rcases List.mem_append.mp hp with hp | hp
  · obtain ⟨hnew, hg, hdef, x', hx', hy⟩ := hall p hp
    exact ⟨hnew, hg, hdef, x', by grind, hy⟩
  · obtain ⟨hnew, hg, hdef, x', hx', hy⟩ := hall' p hp
    exact ⟨by grind, hg, hdef, x', by grind, hy⟩

theorem Grown.of_exchange {x y z : α} {b r : Board α} (hy : y ∈ attackers x)
    (hz : z ∈ attackers y) (hnew : z ∉ b.pro) (hg : z ∈ grounded (Lists attackers))
    (h : Grown attackers z (b.exchange y z) r) : Grown attackers x b r := by
  have hdef : Defender (Lists attackers) x z := .step .self hy hz
  obtain ⟨ps, hps, hall⟩ := h
  refine ⟨z :: ps, by rw [hps, Board.exchange_pro, List.append_assoc, List.singleton_append], ?_⟩
  intro p hp
  rcases List.mem_cons.mp hp with rfl | hp
  · exact ⟨hnew, hg, hdef, x, .head _, y, hy, hz⟩
  · obtain ⟨hp', hpg, hpdef, x', hx', hy'⟩ := hall p hp
    refine ⟨?_, hpg, hdef.trans hpdef, x', .tail _ hx', hy'⟩
    simp only [Board.exchange_pro, List.mem_append, not_or] at hp'
    exact hp'.1

theorem Grown.subset {x : α} {b r : Board α} (h : Grown attackers x b r) : b.pro ⊆ r.pro := by
  obtain ⟨ps, hps, -⟩ := h
  rw [hps]
  exact List.subset_append_left _ _

theorem Grown.mem_of_closed {U : Finset α} (hU : ∀ x ∈ U, ∀ y ∈ attackers x, y ∈ U) {x : α}
    {b r : Board α} (hx : x ∈ U) (hb : ∀ p ∈ b.pro, p ∈ U) (h : Grown attackers x b r) :
    ∀ p ∈ r.pro, p ∈ U := by
  obtain ⟨ps, hps, hall⟩ := h
  rw [hps]
  intro p hp
  rcases List.mem_append.mp hp with hp | hp
  · exact hb p hp
  · exact (hall p hp).2.2.1.mem_of_closed (S := U) (fun x hx y hy ↦ hU x hx y hy) hx

section Search

variable [DecidableEq α] (attackers : α → List α)

def firstDefence (defend : Board α → Result α) (b : Board α) (y : α) : List α → Result α
  | [] => some none
  | z :: zs =>
    if z ∈ b.pro ∨ y ∈ attackers z then firstDefence defend b y zs
    else match defend (b.exchange y z) with
      | some (some r) => some (some r)
      | some none => firstDefence defend b y zs
      | none => none

def answerAll (defend : Board α → Result α) : List α → Board α → Result α
  | [], b => some (some b)
  | y :: ys, b =>
    match firstDefence attackers defend b y (attackers y) with
    | some (some r) => answerAll defend ys r
    | some none => some none
    | none => none

/-- The defence of the proponent's last argument in at most so many moves. -/
def defend : (moves : Nat) → Board α → Result α
  | 0, _ => none
  | moves + 1, b =>
    match b.pro.getLast? with
    | none => some none
    | some x => answerAll attackers (defend moves) (attackers x) b

end Search

variable [DecidableEq α]

def Sound (attackers : α → List α) (defend : Board α → Result α) : Prop :=
  ∀ b r, defend b = some (some r) → ∀ x, b.pro.getLast? = some x →
    x ∈ grounded (Lists attackers) ∧ Grown attackers x b r

section Answers

variable {defend : Board α → Result α}

theorem firstDefence_sound (hd : Sound attackers defend) {b r : Board α} {y : α} {zs : List α}
    (hzs : zs ⊆ attackers y) (h : firstDefence attackers defend b y zs = some (some r)) :
    ∃ z ∈ attackers y, z ∉ b.pro ∧ z ∈ grounded (Lists attackers) ∧
      Grown attackers z (b.exchange y z) r := by
  induction zs with
  | nil => cases h
  | cons z zs ih =>
    obtain ⟨hz, hzs⟩ := List.cons_subset.mp hzs
    rw [firstDefence] at h
    split at h
    · exact ih hzs h
    · rename_i hskip
      split at h
      · rename_i r' hdefend
        cases h
        exact ⟨z, hz, fun hmem ↦ hskip (.inl hmem), hd _ _ hdefend z (by simp)⟩
      · exact ih hzs h
      · cases h

theorem answerAll_sound (hd : Sound attackers defend) {x : α} {ys : List α}
    (hys : ys ⊆ attackers x) {b r : Board α} (h : answerAll attackers defend ys b = some (some r)) :
    (∀ y ∈ ys, ∃ z ∈ attackers y, z ∈ grounded (Lists attackers)) ∧ Grown attackers x b r := by
  induction ys generalizing b with
  | nil =>
    cases h
    exact ⟨by simp, .refl x _⟩
  | cons y ys ih =>
    obtain ⟨hy, hys⟩ := List.cons_subset.mp hys
    rw [answerAll] at h
    split at h
    · rename_i r' hfirst
      obtain ⟨z, hz, hnew, hg, hgrown⟩ := firstDefence_sound hd (List.Subset.refl _) hfirst
      obtain ⟨hrest, hgrown'⟩ := ih hys h
      refine ⟨List.forall_mem_cons.mpr ⟨⟨z, hz, hg⟩, hrest⟩, ?_⟩
      exact (hgrown.of_exchange hy hz hnew hg).trans hgrown'
    · cases h
    · cases h

end Answers

theorem defend_sound (moves : Nat) : Sound attackers (defend attackers moves) := by
  induction moves with
  | zero => intro b r h; cases h
  | succ moves ih =>
    intro b r h x hx
    simp only [defend, hx] at h
    obtain ⟨hall, hgrown⟩ := answerAll_sound ih (List.Subset.refl _) h
    refine ⟨mem_grounded_of_defends ?_, hgrown⟩
    rintro x' rfl y hy
    obtain ⟨z, hz, hg⟩ := hall y hy
    exact ⟨z, hg, hz⟩

section Bounded

variable {U : Finset α} {defend : Board α → Result α}

def EndsBelow (U : Finset α) (n : Nat) (defend : Board α → Result α) : Prop :=
  ∀ b : Board α, (∀ p ∈ b.pro, p ∈ U) → (unused U b.pro).card < n → defend b ≠ none

theorem firstDefence_ne_none {n : Nat} (hd : EndsBelow U n defend) {b : Board α}
    (hb : ∀ p ∈ b.pro, p ∈ U) (hn : (unused U b.pro).card ≤ n) (y : α) {zs : List α}
    (hzs : ∀ z ∈ zs, z ∈ U) : firstDefence attackers defend b y zs ≠ none := by
  induction zs with
  | nil => simp [firstDefence]
  | cons z zs ih =>
    obtain ⟨hz, hzs⟩ := List.forall_mem_cons.mp hzs
    rw [firstDefence]
    split
    · exact ih hzs
    · rename_i hskip
      have hlt := card_unused_concat_lt hz (fun hmem ↦ hskip (.inl hmem))
      have hends := hd (b.exchange y z) (by simpa [or_imp, forall_and] using ⟨hb, hz⟩)
        (Nat.lt_of_lt_of_le hlt hn)
      split
      · simp
      · exact ih hzs
      · contradiction

theorem answerAll_ne_none {n : Nat} (hU : ∀ x ∈ U, ∀ y ∈ attackers x, y ∈ U)
    (hsound : Sound attackers defend) (hd : EndsBelow U n defend) {x : α} (hx : x ∈ U) {ys : List α}
    (hys : ys ⊆ attackers x) {b : Board α} (hb : ∀ p ∈ b.pro, p ∈ U)
    (hn : (unused U b.pro).card ≤ n) : answerAll attackers defend ys b ≠ none := by
  induction ys generalizing b with
  | nil => simp [answerAll]
  | cons y ys ih =>
    obtain ⟨hy, hys⟩ := List.cons_subset.mp hys
    have hfirst : firstDefence attackers defend b y (attackers y) ≠ none :=
      firstDefence_ne_none hd hb hn y (hU y (hU x hx y hy))
    rw [answerAll]
    split
    · rename_i r hr
      obtain ⟨z, hz, hnew, hg, hz'⟩ := firstDefence_sound hsound (List.Subset.refl _) hr
      have hgrown := hz'.of_exchange hy hz hnew hg
      refine ih hys (hgrown.mem_of_closed hU hx hb) ?_
      exact Nat.le_trans (card_unused_le hgrown.subset) hn
    · simp
    · contradiction

end Bounded

theorem defend_endsBelow {U : Finset α} (hU : ∀ x ∈ U, ∀ y ∈ attackers x, y ∈ U) (moves : Nat) :
    EndsBelow U moves (defend attackers moves) := by
  induction moves with
  | zero => exact fun b _ hn ↦ absurd hn (Nat.not_lt_zero _)
  | succ moves ih =>
    intro b hb hn
    rw [defend]
    cases hlast : b.pro.getLast? with
    | none => simp
    | some x =>
      have hx : x ∈ U := hb x (List.mem_of_getLast? hlast)
      exact answerAll_ne_none hU (defend_sound moves) ih hx (List.Subset.refl _) hb
        (Nat.le_of_lt_succ hn)

/-- A dialogue about an argument ends within as many moves as there are arguments. -/
theorem defend_seeded_ne_none {U : Finset α} (hU : ∀ x ∈ U, ∀ y ∈ attackers x, y ∈ U) {x : α}
    (hx : x ∈ U) {moves : Nat} (hmoves : U.card < moves) :
    defend attackers moves (.seeded x) ≠ none := by
  refine defend_endsBelow hU moves _ (by simpa [Board.seeded] using hx) ?_
  exact Nat.lt_of_le_of_lt (Finset.card_le_card (Finset.filter_subset _ _)) hmoves

end Argumentation.Game.Sceptical
