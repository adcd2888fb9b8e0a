import Argumentation.Proofs.Game.Credulous

namespace Argumentation.Game.Credulous

open AttackGraph

variable {α : Type} {attackers : α → List α} {own : Set α} {I : Board α → Prop} {b : Board α}
  {x y z : α}

/-- On boards in `I`, the proponent finds a counterattack from `own` wherever an argument of `own`
needs one, and any defence of that counterattack leads to a board in `I` again. -/
structure Strategy (attackers : α → List α) (own : Set α) (I : Board α → Prop) : Prop where
  balanced : ∀ {b}, I b → Balanced attackers b
  peaceful : ∀ {b x y}, I b → x ∈ b.pro → y ∈ attackers x → y ∉ b.pro
  concede : ∀ {b y p}, I b → y ∉ b.pro → p ∈ b.pro → p ∈ attackers y → I (b.concede y)
  answer : ∀ {b x y}, I b → x ∈ b.pro → x ∈ own → y ∈ attackers x → (∀ p ∈ b.pro, p ∉ attackers y) →
    ∃ z ∈ attackers y, z ∈ own ∧ z ∉ b.opp ∧ ¬ Conflicts attackers z b.pro ∧
      I (b.exchange y z) ∧ ∀ {b'}, Grown attackers z (b.exchange y z) b' →
        attackers z ⊆ b'.opp → I b'

variable [DecidableEq α]

section Answers

variable {defend others : Board α → Result α} {ys zs : List α}

theorem firstDefence_ne_some_none (hopp : z ∉ b.opp) (hpeace : ¬ Conflicts attackers z b.pro)
    (hd : defend (b.exchange y z) ≠ some none)
    (hothers : ∀ b', defend (b.exchange y z) = some (some b') → others b' ≠ some none)
    (hz : z ∈ zs) : firstDefence attackers defend others b y zs ≠ some none := by
  induction zs with
  | nil => cases hz
  | cons z' zs ih =>
    rw [firstDefence]
    rcases List.mem_cons.mp hz with rfl | hz
    · rw [if_neg (not_or.mpr ⟨hopp, hpeace⟩)]
      split
      · rename_i b' hdefend
        have := hothers b' hdefend
        split
        · simp
        · contradiction
        · simp
      · contradiction
      · simp
    · split
      · exact ih hz
      · split
        · split
          · simp
          · exact ih hz
          · simp
        · exact ih hz
        · simp

theorem Strategy.answerAll_ne_some_none (h : Strategy attackers own I)
    (hsound : Sound attackers defend)
    (hd : ∀ b x, b.pro.getLast? = some x → x ∈ own → I b → defend b ≠ some none)
    (hown : x ∈ own) (hys : ys ⊆ attackers x) (hx : x ∈ b.pro) (hb : I b) :
    answerAll attackers defend ys b ≠ some none := by
  induction ys generalizing b with
  | nil => simp [answerAll]
  | cons y ys ih =>
    obtain ⟨hyx, hys⟩ := List.cons_subset.mp hys
    have hy : y ∉ b.pro := h.peaceful hb hx hyx
    rw [answerAll, if_neg hy]
    split
    · exact ih hys hx hb
    split
    · rename_i hfree
      obtain ⟨p, hp, hpy⟩ := hfree
      exact ih (b := b.concede y) hys hx (h.concede hb hy hp hpy)
    · rename_i hfree
      obtain ⟨z, hzy, hz, hopp, hpeace, hnext, hlater⟩ :=
        h.answer hb hx hown hyx fun p hp hpy ↦ hfree ⟨p, hp, hpy⟩
      have hlast : (b.exchange y z).pro.getLast? = some z := by simp
      refine firstDefence_ne_some_none hopp hpeace (hd _ z hlast hz hnext) (fun b' hdefend ↦ ?_) hzy
      obtain ⟨hgrown, hanswered⟩ := hsound _ _ hdefend z hlast (h.balanced hnext)
      exact ih hys (hgrown.pro (List.mem_append_left _ hx)) (hlater hgrown hanswered)

end Answers

namespace Strategy

/-- The defence of an argument of `own` on a board in `I` does not fail. -/
theorem defend_ne_some_none (h : Strategy attackers own I) (moves : Nat)
    (hlast : b.pro.getLast? = some x) (hown : x ∈ own) (hb : I b) :
    defend attackers moves b ≠ some none := by
  induction moves generalizing b x with
  | zero => simp [defend]
  | succ moves ih =>
    simp only [defend, hlast]
    exact h.answerAll_ne_some_none (defend_sound moves) (fun b x hl ho hb ↦ ih hl ho hb) hown
      (List.Subset.refl _) (List.mem_of_getLast? hlast) hb

/-- With enough moves the dialogue accepts an argument that the proponent has a strategy for. -/
theorem exists_defend_eq_some (h : Strategy attackers own I) {U : Finset α}
    (hU : ∀ x ∈ U, ∀ y ∈ attackers x, y ∈ U) (hx : x ∈ U) (hown : x ∈ own) (hb : I (.seeded x))
    {moves : Nat} (hmoves : U.card < moves) :
    ∃ r, defend attackers moves (.seeded x) = some (some r) := by
  have hanswer := h.defend_ne_some_none moves (b := .seeded x) rfl hown hb
  have hends := defend_seeded_ne_none hU hx hmoves
  rcases hr : defend attackers moves (.seeded x) with _ | _ | r
  · contradiction
  · contradiction
  · exact ⟨r, rfl⟩

end Strategy

end Argumentation.Game.Credulous
