import Mathlib.Data.List.Forall2

namespace Argumentation

variable {α β γ : Type} {R : α → β → Prop} {as : List α} {bs : List β} {f : α → Bool}
  {g : β → Bool}

theorem exists_of_forall₂ (h : List.Forall₂ R as bs) : ∀ a ∈ as, ∃ b ∈ bs, R a b := by
  induction h with
  | nil => simp
  | cons hab _ ih =>
    refine List.forall_mem_cons.mpr ⟨⟨_, .head _, hab⟩, fun a ha ↦ ?_⟩
    obtain ⟨b, hb, hab⟩ := ih a ha
    exact ⟨b, .tail _ hb, hab⟩

theorem forall₂_imp {S : α → β → Prop} (h : List.Forall₂ R as bs)
    (has : ∀ a ∈ as, ∀ {b}, R a b → S a b) : List.Forall₂ S as bs := by
  induction h with
  | nil => exact .nil
  | cons hab _ ih => exact .cons (has _ (.head _) hab) (ih fun a ha ↦ has a (.tail _ ha))

theorem forall₂_trans {S : β → γ → Prop} {T : α → γ → Prop} {cs : List γ}
    (h : List.Forall₂ R as bs) (h' : List.Forall₂ S bs cs)
    (has : ∀ a ∈ as, ∀ {b c}, R a b → S b c → T a c) : List.Forall₂ T as cs := by
  induction h generalizing cs with
  | nil =>
    cases h'
    exact .nil
  | cons hab _ ih =>
    obtain - | ⟨hbc, h'⟩ := h'
    exact .cons (has _ (.head _) hab hbc) (ih h' fun a ha ↦ has a (.tail _ ha))

theorem forall₂_mem (h : List.Forall₂ R as bs) :
    List.Forall₂ (fun a b ↦ a ∈ as ∧ b ∈ bs ∧ R a b) as bs := by
  have hright := (List.forall₂_and_left bs as).mpr ⟨fun _ hb ↦ hb, h.flip⟩
  exact (List.forall₂_and_left as bs).mpr ⟨fun _ ha ↦ ha, hright.flip⟩

theorem forall₂_of_common {S : γ → β → Prop} {T : α → γ → Prop} {cs : List γ}
    (h : List.Forall₂ R as bs) (h' : List.Forall₂ S cs bs)
    (hT : ∀ a c b, R a b → S c b → T a c) : List.Forall₂ T as cs := by
  induction h generalizing cs with
  | nil =>
    cases h'
    exact .nil
  | cons hab _ ih =>
    obtain - | ⟨hcb, h'⟩ := h'
    exact .cons (hT _ _ _ hab hcb) (ih h')

theorem map_eq_of_forall₂ {k : α → β} (h : List.Forall₂ (fun a b ↦ k a = b) as bs) :
    as.map k = bs := by
  rw [← List.forall₂_eq_eq_eq]
  exact List.forall₂_map_left_iff.mpr h

theorem any_eq_of_forall₂ (h : List.Forall₂ R as bs) (hfg : ∀ a b, R a b → g b = f a) :
    bs.any g = as.any f := by
  induction h with
  | nil => rfl
  | cons hab _ ih => rw [List.any_cons, List.any_cons, hfg _ _ hab, ih]

theorem find?_of_forall₂ (h : List.Forall₂ R as bs) (hfg : ∀ a b, R a b → g b = f a) :
    Option.Rel R (as.find? f) (bs.find? g) := by
  induction h with
  | nil => exact .none
  | cons hab _ ih =>
    rw [List.find?_cons, List.find?_cons, hfg _ _ hab]
    split
    · exact .some hab
    · exact ih

theorem getLast?_of_forall₂ (h : List.Forall₂ R as bs) : Option.Rel R as.getLast? bs.getLast? := by
  rw [List.getLast?_eq_head?_reverse, List.getLast?_eq_head?_reverse]
  have hreverse := List.rel_reverse h
  generalize as.reverse = as, bs.reverse = bs at hreverse ⊢
  cases hreverse with
  | nil => exact .none
  | cons hab _ => exact .some hab

theorem lookup_of_mem_of_nodup {κ β : Type} [BEq κ] [LawfulBEq κ] {l : List (κ × β)}
    (h : (l.map Prod.fst).Nodup) {k : κ} {v : β} (hmem : (k, v) ∈ l) : l.lookup k = some v := by
  obtain ⟨l₁, l₂, rfl⟩ := List.append_of_mem hmem
  rw [List.map_append, List.map_cons, List.nodup_append] at h
  refine List.lookup_eq_some_iff.mpr ⟨l₁, l₂, rfl, fun e he ↦ ?_⟩
  rw [bne_iff_ne]
  exact (h.2.2 e.1 (List.mem_map_of_mem he) k (.head _)).symm

end Argumentation
