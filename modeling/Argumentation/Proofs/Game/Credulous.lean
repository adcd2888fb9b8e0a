import Argumentation.Proofs.Game.Basic

namespace Argumentation.Game.Credulous

open AttackGraph

variable {α : Type}

section Search

variable [DecidableEq α] (attackers : α → List α)

def Conflicts (z : α) (pro : List α) : Prop :=
  ∃ p ∈ pro, z ∈ attackers p ∨ p ∈ attackers z

instance (z : α) (pro : List α) : Decidable (Conflicts attackers z pro) :=
  inferInstanceAs (Decidable (∃ p ∈ pro, z ∈ attackers p ∨ p ∈ attackers z))

def firstDefence (defend others : Board α → Result α) (b : Board α) (y : α) : List α → Result α
  | [] => some none
  | z :: zs =>
    if z ∈ b.opp ∨ Conflicts attackers z b.pro then firstDefence defend others b y zs
    else match defend (b.exchange y z) with
      | some (some b') =>
        match others b' with
        | some (some r) => some (some r)
        | some none => firstDefence defend others b y zs
        | none => none
      | some none => firstDefence defend others b y zs
      | none => none

def answerAll (defend : Board α → Result α) : List α → Board α → Result α
  | [], b => some (some b)
  | y :: ys, b =>
    if y ∈ b.opp then answerAll defend ys b
    else if y ∈ b.pro then some none
    else if ∃ p ∈ b.pro, p ∈ attackers y then answerAll defend ys (b.concede y)
    else firstDefence attackers defend (answerAll defend ys) b y (attackers y)

/-- The defence of the proponent's last argument in at most so many moves. -/
def defend : (moves : Nat) → Board α → Result α
  | 0, _ => none
  | moves + 1, b =>
    match b.pro.getLast? with
    | none => some none
    | some x => answerAll attackers (defend moves) (attackers x) b

end Search

/-- The opponent's arguments are none of the proponent's, and each is attacked by one of them. -/
structure Balanced (attackers : α → List α) (b : Board α) : Prop where
  disjoint : ∀ o ∈ b.opp, o ∉ b.pro
  attacked : ∀ o ∈ b.opp, ∃ p ∈ b.pro, p ∈ attackers o

/-- What a defence of `x` adds: defenders of `x` that attack none of the proponent's earlier
arguments, and whose attackers are all among the opponent's arguments. -/
structure Grown (attackers : α → List α) (x : α) (b r : Board α) : Prop where
  balanced : Balanced attackers r
  pro : b.pro ⊆ r.pro
  opp : b.opp ⊆ r.opp
  defender : ∀ p ∈ r.pro, p ∉ b.pro → Defender (Lists attackers) x p
  peaceful : ∀ p ∈ r.pro, p ∉ b.pro → ∀ q ∈ b.pro, p ∉ attackers q
  answered : ∀ p ∈ r.pro, p ∉ b.pro → attackers p ⊆ r.opp

variable {attackers : α → List α} {x y z : α} {b b' r : Board α}

theorem Grown.refl (hb : Balanced attackers b) : Grown attackers x b b :=
  ⟨hb, List.Subset.refl _, List.Subset.refl _, fun _ hp hp' ↦ absurd hp hp',
    fun _ hp hp' ↦ absurd hp hp', fun _ hp hp' ↦ absurd hp hp'⟩

theorem Grown.trans (h : Grown attackers x b b') (h' : Grown attackers x b' r) :
    Grown attackers x b r := by
  refine ⟨h'.balanced, List.Subset.trans h.pro h'.pro,
    List.Subset.trans h.opp h'.opp, fun p hp hnew ↦ ?_, fun p hp hnew q hq ↦ ?_, fun p hp hnew ↦ ?_⟩
  all_goals by_cases hmem : p ∈ b'.pro
  · exact h.defender p hmem hnew
  · exact h'.defender p hp hmem
  · exact h.peaceful p hmem hnew q hq
  · exact h'.peaceful p hp hmem q (h.pro hq)
  · exact List.Subset.trans (h.answered p hmem hnew) h'.opp
  · exact h'.answered p hp hmem

theorem Balanced.seeded (x : α) : Balanced attackers (.seeded x) :=
  ⟨by simp [Board.seeded], by simp [Board.seeded]⟩

theorem Balanced.concede (hb : Balanced attackers b) (hy : y ∉ b.pro) {p : α} (hp : p ∈ b.pro)
    (hpy : p ∈ attackers y) : Balanced attackers (b.concede y) := by
  refine ⟨fun o ho ↦ ?_, fun o ho ↦ ?_⟩
  all_goals rcases List.mem_append.mp ho with ho | ho
  · exact hb.disjoint o ho
  · exact List.mem_singleton.mp ho ▸ hy
  · exact hb.attacked o ho
  · exact ⟨p, hp, List.mem_singleton.mp ho ▸ hpy⟩

theorem Grown.concede (h : Grown attackers x (b.concede y) r) : Grown attackers x b r :=
  { h with opp := List.Subset.trans (List.subset_append_left _ _) h.opp }

theorem Balanced.exchange (hb : Balanced attackers b) (hx : x ∈ b.pro) (hyx : y ∈ attackers x)
    (hy : y ∉ b.pro) (hzy : z ∈ attackers y) (hz : z ∉ b.opp)
    (hpeace : ¬ Conflicts attackers z b.pro) : Balanced attackers (b.exchange y z) := by
  -- The attacker itself would be in conflict with the argument that it attacks.
  have hne : y ≠ z := by
    rintro rfl
    exact hpeace ⟨x, hx, .inl hyx⟩
  refine ⟨fun o ho ↦ ?_, fun o ho ↦ ?_⟩
  all_goals simp only [Board.exchange_opp, List.mem_append, List.mem_singleton] at ho
  · simp only [Board.exchange_pro, List.mem_append, List.mem_singleton, not_or]
    rcases ho with ho | rfl
    · exact ⟨hb.disjoint o ho, fun heq ↦ hz (heq ▸ ho)⟩
    · exact ⟨hy, hne⟩
  · rcases ho with ho | rfl
    · obtain ⟨p, hp, hpo⟩ := hb.attacked o ho
      exact ⟨p, List.mem_append_left _ hp, hpo⟩
    · exact ⟨z, by simp, hzy⟩

/-- A defence of the answer to an attacker of `x` is part of a defence of `x`. -/
theorem Grown.of_exchange (hyx : y ∈ attackers x) (hzy : z ∈ attackers y)
    (hpeace : ¬ Conflicts attackers z b.pro) (h : Grown attackers z (b.exchange y z) r)
    (hanswered : attackers z ⊆ r.opp) : Grown attackers x b r := by
  have hdef : Defender (Lists attackers) x z := .step .self hyx hzy
  have hcases : ∀ p, p ∉ b.pro → p = z ∨ p ∉ (b.exchange y z).pro := by
    intro p hp
    simp only [Board.exchange_pro, List.mem_append, List.mem_singleton, not_or]
    exact (em (p = z)).imp_right fun hne ↦ ⟨hp, hne⟩
  refine ⟨h.balanced, List.Subset.trans (List.subset_append_left _ _) h.pro,
    List.Subset.trans (List.subset_append_left _ _) h.opp, fun p hp hnew ↦ ?_,
    fun p hp hnew q hq ↦ ?_, fun p hp hnew ↦ ?_⟩
  all_goals rcases hcases p hnew with rfl | hnew'
  · exact hdef
  · exact hdef.trans (h.defender p hp hnew')
  · exact fun hpq ↦ hpeace ⟨q, hq, .inl hpq⟩
  · exact h.peaceful p hp hnew' q (List.mem_append_left _ hq)
  · exact hanswered
  · exact h.answered p hp hnew'

theorem Grown.conflictFree (h : Grown attackers x b r)
    (hb : ConflictFree (Lists attackers) {p | p ∈ b.pro}) :
    ConflictFree (Lists attackers) {p | p ∈ r.pro} := by
  intro p hp q hq hqp
  by_cases hnew : p ∈ b.pro
  · by_cases hnew' : q ∈ b.pro
    · exact hb p hnew q hnew' hqp
    · exact h.peaceful q hq hnew' p hnew hqp
  · exact h.balanced.disjoint q (h.answered p hp hnew hqp) hq

variable [DecidableEq α]

def Sound (attackers : α → List α) (defend : Board α → Result α) : Prop :=
  ∀ b r, defend b = some (some r) → ∀ x, b.pro.getLast? = some x → Balanced attackers b →
    Grown attackers x b r ∧ attackers x ⊆ r.opp

section Answers

variable {defend others : Board α → Result α} {ys zs : List α}

theorem firstDefence_sound (hd : Sound attackers defend) (hb : Balanced attackers b)
    (hx : x ∈ b.pro) (hyx : y ∈ attackers x) (hy : y ∉ b.pro) (hzs : zs ⊆ attackers y)
    (h : firstDefence attackers defend others b y zs = some (some r)) :
    ∃ b', Grown attackers x b b' ∧ y ∈ b'.opp ∧ others b' = some (some r) := by
  induction zs with
  | nil => cases h
  | cons z zs ih =>
    obtain ⟨hzy, hzs⟩ := List.cons_subset.mp hzs
    rw [firstDefence] at h
    split at h
    · exact ih hzs h
    · rename_i hskip
      obtain ⟨hz, hpeace⟩ := not_or.mp hskip
      split at h
      · rename_i b' hdefend
        split at h
        · rename_i r' hothers
          cases h
          have hb' := hb.exchange hx hyx hy hzy hz hpeace
          obtain ⟨hgrown, hanswered⟩ := hd _ _ hdefend z (by simp) hb'
          refine ⟨b', hgrown.of_exchange hyx hzy hpeace hanswered, hgrown.opp ?_, hothers⟩
          simp
        · exact ih hzs h
        · cases h
      · exact ih hzs h
      · cases h

theorem answerAll_sound (hd : Sound attackers defend) (hys : ys ⊆ attackers x) (hx : x ∈ b.pro)
    (hb : Balanced attackers b) (h : answerAll attackers defend ys b = some (some r)) :
    Grown attackers x b r ∧ ys ⊆ r.opp := by
  induction ys generalizing b with
  | nil =>
    cases h
    exact ⟨.refl hb, List.nil_subset _⟩
  | cons y ys ih =>
    obtain ⟨hyx, hys⟩ := List.cons_subset.mp hys
    rw [answerAll] at h
    split at h
    · rename_i hopp
      obtain ⟨hgrown, hrest⟩ := ih hys hx hb h
      exact ⟨hgrown, List.cons_subset.mpr ⟨hgrown.opp hopp, hrest⟩⟩
    split at h
    · cases h
    rename_i hy
    split at h
    · rename_i hfree
      obtain ⟨p, hp, hpy⟩ := hfree
      obtain ⟨hgrown, hrest⟩ := ih (b := b.concede y) hys hx (hb.concede hy hp hpy) h
      exact ⟨hgrown.concede, List.cons_subset.mpr ⟨hgrown.opp List.mem_concat_self, hrest⟩⟩
    · obtain ⟨b', hgrown, hopp, hothers⟩ :=
        firstDefence_sound hd hb hx hyx hy (List.Subset.refl _) h
      obtain ⟨hgrown', hrest⟩ := ih hys (hgrown.pro hx) hgrown.balanced hothers
      exact ⟨hgrown.trans hgrown', List.cons_subset.mpr ⟨hgrown'.opp hopp, hrest⟩⟩

end Answers

theorem defend_sound (moves : Nat) : Sound attackers (defend attackers moves) := by
  induction moves with
  | zero => intro b r h; cases h
  | succ moves ih =>
    intro b r h x hx hb
    simp only [defend, hx] at h
    exact answerAll_sound ih (List.Subset.refl _) (List.mem_of_getLast? hx) hb h

/-- The proponent's arguments in what the dialogue accepts are admissible. -/
theorem admissible_of_defend_eq_some {moves : Nat}
    (h : defend attackers moves (.seeded x) = some (some r)) :
    x ∈ r.pro ∧ Admissible (Lists attackers) {p | p ∈ r.pro} := by
  obtain ⟨hgrown, hx⟩ := defend_sound moves _ _ h x rfl (.seeded x)
  have hanswered : ∀ p ∈ r.pro, attackers p ⊆ r.opp := by
    intro p hp
    by_cases hpx : p = x
    · exact hpx ▸ hx
    · exact hgrown.answered p hp (by simpa [Board.seeded] using hpx)
  refine ⟨hgrown.pro (.head _), fun p hp q hq hqp ↦ ?_, fun p hp q hqp ↦ ?_⟩
  · exact hgrown.balanced.disjoint q (hanswered p hp hqp) hq
  · exact hgrown.balanced.attacked q (hanswered p hp hqp)

section Bounded

variable {U : Finset α} {n : Nat} {defend others : Board α → Result α} {ys zs : List α}

theorem Grown.mem_of_closed (hU : ∀ x ∈ U, ∀ y ∈ attackers x, y ∈ U) (hx : x ∈ U)
    (hb : ∀ p ∈ b.pro, p ∈ U) (h : Grown attackers x b r) : ∀ p ∈ r.pro, p ∈ U := by
  intro p hp
  by_cases hmem : p ∈ b.pro
  · exact hb p hmem
  · exact (h.defender p hp hmem).mem_of_closed (S := U) (fun x hx y hy ↦ hU x hx y hy) hx

def EndsBelow (attackers : α → List α) (U : Finset α) (n : Nat) (defend : Board α → Result α) :
    Prop :=
  ∀ b : Board α, Balanced attackers b → (∀ p ∈ b.pro, p ∈ U) → (unused U b.opp).card < n →
    defend b ≠ none

theorem firstDefence_ne_none (hU : ∀ x ∈ U, ∀ y ∈ attackers x, y ∈ U)
    (hsound : Sound attackers defend) (hd : EndsBelow attackers U n defend)
    (hb : Balanced attackers b) (hpro : ∀ p ∈ b.pro, p ∈ U) (hn : (unused U b.opp).card ≤ n)
    (hx : x ∈ b.pro) (hyx : y ∈ attackers x) (hopp : y ∉ b.opp) (hy : y ∉ b.pro)
    (hzs : zs ⊆ attackers y) (hothers : ∀ b', Grown attackers x b b' → others b' ≠ none) :
    firstDefence attackers defend others b y zs ≠ none := by
  have hyU : y ∈ U := hU x (hpro x hx) y hyx
  induction zs with
  | nil => simp [firstDefence]
  | cons z zs ih =>
    obtain ⟨hzy, hzs⟩ := List.cons_subset.mp hzs
    rw [firstDefence]
    split
    · exact ih hzs
    · rename_i hskip
      obtain ⟨hz, hpeace⟩ := not_or.mp hskip
      have hb' := hb.exchange hx hyx hy hzy hz hpeace
      have hpro' : ∀ p ∈ (b.exchange y z).pro, p ∈ U := by
        simpa [or_imp, forall_and] using ⟨hpro, hU y hyU z hzy⟩
      have hends := hd _ hb' hpro' (Nat.lt_of_lt_of_le (card_unused_concat_lt hyU hopp) hn)
      split
      · rename_i b' hdefend
        obtain ⟨hgrown, hanswered⟩ := hsound _ _ hdefend z (by simp) hb'
        have hrest := hothers b' (hgrown.of_exchange hyx hzy hpeace hanswered)
        split
        · simp
        · exact ih hzs
        · contradiction
      · exact ih hzs
      · contradiction

theorem answerAll_ne_none (hU : ∀ x ∈ U, ∀ y ∈ attackers x, y ∈ U)
    (hsound : Sound attackers defend) (hd : EndsBelow attackers U n defend)
    (hys : ys ⊆ attackers x) (hb : Balanced attackers b) (hpro : ∀ p ∈ b.pro, p ∈ U)
    (hn : (unused U b.opp).card ≤ n) (hx : x ∈ b.pro) : answerAll attackers defend ys b ≠ none := by
  induction ys generalizing b with
  | nil => simp [answerAll]
  | cons y ys ih =>
    obtain ⟨hyx, hys⟩ := List.cons_subset.mp hys
    have hlater {b' : Board α} (hgrown : b.opp ⊆ b'.opp) : (unused U b'.opp).card ≤ n :=
      Nat.le_trans (card_unused_le hgrown) hn
    rw [answerAll]
    split
    · exact ih hys hb hpro hn hx
    rename_i hopp
    split
    · simp
    rename_i hy
    split
    · rename_i hfree
      obtain ⟨p, hp, hpy⟩ := hfree
      exact ih (b := b.concede y) hys (hb.concede hy hp hpy) hpro
        (hlater (List.subset_append_left _ _)) hx
    · refine firstDefence_ne_none hU hsound hd hb hpro hn hx hyx hopp hy (List.Subset.refl _) ?_
      intro b' hgrown
      exact ih hys hgrown.balanced (hgrown.mem_of_closed hU (hpro x hx) hpro) (hlater hgrown.opp)
        (hgrown.pro hx)

end Bounded

theorem defend_endsBelow {U : Finset α} (hU : ∀ x ∈ U, ∀ y ∈ attackers x, y ∈ U) (moves : Nat) :
    EndsBelow attackers U moves (defend attackers moves) := by
  induction moves with
  | zero => exact fun b _ _ hn ↦ absurd hn (Nat.not_lt_zero _)
  | succ moves ih =>
    intro b hb hpro hn
    rw [defend]
    cases hlast : b.pro.getLast? with
    | none => simp
    | some x =>
      exact answerAll_ne_none hU (defend_sound moves) ih (List.Subset.refl _) hb hpro
        (Nat.le_of_lt_succ hn) (List.mem_of_getLast? hlast)

/-- A dialogue about an argument ends within as many moves as there are arguments. -/
theorem defend_seeded_ne_none {U : Finset α} (hU : ∀ x ∈ U, ∀ y ∈ attackers x, y ∈ U) (hx : x ∈ U)
    {moves : Nat} (hmoves : U.card < moves) : defend attackers moves (.seeded x) ≠ none := by
  refine defend_endsBelow hU moves _ (.seeded x) (by simpa [Board.seeded] using hx) ?_
  exact Nat.lt_of_le_of_lt (Finset.card_le_card (Finset.filter_subset _ _)) hmoves

end Argumentation.Game.Credulous
