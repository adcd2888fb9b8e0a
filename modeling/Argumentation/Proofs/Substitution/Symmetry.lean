import Argumentation.Proofs.Substitution.Frame
import Argumentation.Proofs.Term.Variant
import Mathlib.Logic.Equiv.Basic

namespace Argumentation

open Equiv (Perm)

def Term.exchange (ρ : Perm Variable) : Term → Term
  | .var v => .var (ρ v)
  | t => t

theorem Term.exchange_symm {ρ : Perm Variable} {t u : Term} (h : u = t.exchange ρ) :
    t = u.exchange ρ.symm := by
  subst h
  cases t with
  | var v => simp [exchange]
  | num n => rfl
  | app g xs => rfl

def Term.redirect (t : Term) (v : Variable) (r : Term) : Term :=
  match t with
  | .var w => if w = v then r else .var w
  | t => t

namespace Substitution

variable {ρ : Perm Variable} {s u : Substitution} {v w : Variable} {t l r : Term}

/-- A variable that is left in a term once it is applied is at the end of a chain that starts at
some depth of the term. -/
inductive Ends (s : Substitution) (v : Variable) : Term → Prop
  | here {t : Term} : s.walk t = .var v → Ends s v t
  | inside {t x : Term} {g : Symbol} {xs : List Term} :
      s.walk t = .app g xs → x ∈ xs → Ends s v x → Ends s v t

theorem Ends.of_walk (h : s.Ends v t) (heq : s.walk r = s.walk t) : s.Ends v r := by
  cases h with
  | here hv => exact .here (heq.trans hv)
  | inside happ hx hend => exact .inside (heq.trans happ) hx hend

theorem Ends.of_occurs (hw : w ∈ t.occurrences) (h : s.Ends v (.var w)) : s.Ends v t := by
  induction t using Term.induction with
  | var x => rwa [← List.mem_singleton.mp hw]
  | num n => cases hw
  | app g xs ih =>
    obtain ⟨x, hx, hw⟩ := Term.mem_occurrencesAll.mp hw
    exact .inside rfl hx (ih x hx hw)

theorem Acyclic.mem_apply_iff (hs : s.Acyclic) : v ∈ (s.apply t).occurrences ↔ s.Ends v t := by
  constructor
  · intro h
    rw [apply_eq_bind, Term.mem_occurrences_bind] at h
    obtain ⟨w, hw, hv⟩ := h
    refine .of_occurs hw ?_
    clear hw
    induction w using hs.induction with
    | step w ih =>
      cases hvalue : s.get? w with
      | none =>
        rw [s.apply_of_unbound hvalue] at hv
        obtain rfl := List.mem_singleton.mp hv
        exact .here (walk_of_unbound hvalue)
      | some t =>
        rw [apply_of_bound hs hvalue, apply_eq_bind, Term.mem_occurrences_bind] at hv
        obtain ⟨x, hx, hv⟩ := hv
        exact Ends.of_walk (.of_occurs hx (ih x ⟨t, hvalue, hx⟩ hv)) (hs.walk_of_bound hvalue)
  · intro h
    induction h with
    | here hv =>
      rw [← apply_walk hs, hv, s.apply_of_unbound (hs.get?_of_walk hv)]
      exact .head _
    | inside happ hx _ ih =>
      rw [← apply_walk hs, happ, apply_app, Term.occurrences_fold, Term.mem_occurrencesAll]
      exact ⟨_, List.mem_map_of_mem hx, ih⟩

/-- A chain goes on from its end if that is bound to a term at the end of another chain. -/
theorem Acyclic.walk_bound (hs : s.Acyclic) (hv : s.get? v = none)
    (hoccurs : v ∉ (s.apply r).occurrences) (hr : s.walk r = r) (t : Term) :
    (s.bound v r).walk t = (s.walk t).redirect v r := by
  have hbound : (s.bound v r).Acyclic := hs.bound hv hoccurs
  have hkeep {w : Variable} (hw : s.get? w = none) (hne : w ≠ v) :
      (s.bound v r).walk (.var w) = .var w :=
    walk_of_unbound (by rw [get?_bound, if_neg hne, hw])
  rw [← walk_walk_of_extends hbound (extends_bound hv r)]
  cases hend : s.walk t with
  | num n => rfl
  | app g xs => rfl
  | var w =>
    rw [Term.redirect]
    split
    · rename_i heq
      rw [heq, hbound.walk_of_bound (by rw [get?_bound, if_pos rfl])]
      cases r with
      | num n => rfl
      | app g xs => rfl
      | var x =>
        have hx := hs.get?_of_walk hr
        refine hkeep hx ?_
        rintro rfl
        exact hoccurs (by rw [s.apply_of_unbound hx]; exact .head _)
    · exact hkeep (hs.get?_of_walk hend) ‹_›

/-- The second substitution leads wherever the first one does, unbound variables exchanged. -/
structure Exchanged (ρ : Perm Variable) (s u : Substitution) : Prop where
  left_consistent : s.isConsistent = true
  right_consistent : u.isConsistent = true
  left_acyclic : s.Acyclic
  right_acyclic : u.Acyclic
  walk : ∀ t, u.walk t = (s.walk t).exchange ρ

def Exchangeable (s u : Substitution) : Prop :=
  s.isConsistent = false ∧ u.isConsistent = false ∨ ∃ ρ, Exchanged ρ s u

theorem exchanged_empty : Exchanged (Equiv.refl _) empty empty where
  left_consistent := rfl
  right_consistent := rfl
  left_acyclic := acyclic_empty
  right_acyclic := acyclic_empty
  walk t := by
    cases empty.walk t <;> rfl

theorem Exchanged.symm (h : Exchanged ρ s u) : Exchanged ρ.symm u s :=
  ⟨h.right_consistent, h.left_consistent, h.right_acyclic, h.left_acyclic,
    fun t ↦ Term.exchange_symm (h.walk t)⟩

theorem Exchanged.ends (h : Exchanged ρ s u) (hend : s.Ends v t) : u.Ends (ρ v) t := by
  induction hend with
  | here hv => exact .here (by rw [h.walk, hv]; rfl)
  | inside happ hx _ ih => exact .inside (by rw [h.walk, happ]; rfl) hx ih

theorem Exchanged.ends_iff (h : Exchanged ρ s u) : u.Ends (ρ v) t ↔ s.Ends v t := by
  refine ⟨fun hend ↦ ?_, h.ends⟩
  have hback := h.symm.ends hend
  rwa [Equiv.symm_apply_apply] at hback

theorem Exchanged.mentions (h : Exchanged ρ s u) (v : Variable) (t : Term) :
    (u.apply t).mentions (ρ v) = (s.apply t).mentions v := by
  rw [Bool.eq_iff_iff, Term.mentions, Term.mentions, List.contains_iff_mem, List.contains_iff_mem,
    h.right_acyclic.mem_apply_iff, h.left_acyclic.mem_apply_iff, h.ends_iff]

theorem Exchanged.get?_eq_none (h : Exchanged ρ s u) (hv : s.get? v = none) :
    u.get? (ρ v) = none := by
  refine h.right_acyclic.get?_of_walk (t := .var v) ?_
  rw [h.walk, walk_of_unbound hv]
  rfl

theorem Exchanged.clash (s u : Substitution) : Exchangeable s.clash u.clash :=
  .inl ⟨s.not_isConsistent_clash, u.not_isConsistent_clash⟩

theorem Exchanged.ban (s u : Substitution) (v w : Variable) :
    Exchangeable (s.ban v) (u.ban w) :=
  .inl ⟨s.not_isConsistent_ban v, u.not_isConsistent_ban w⟩

theorem bindVariable_of_unbound (hs : s.isConsistent = true) (hv : s.get? v = none) (t : Term) :
    s.bindVariable v t = if (s.apply t).mentions v then s.ban v else s.bound v t := by
  rw [bindVariable]
  split
  · rfl
  · rename_i hoccurs
    have hself : ¬t.same (.var v) = true := by
      intro hsame
      cases t with
      | var w =>
        obtain rfl : w = v := by simpa [Term.same] using hsame
        rw [s.apply_of_unbound hv] at hoccurs
        simp [Term.mentions, Term.occurrences] at hoccurs
      | num n => cases hsame
      | app g xs => cases hsame
    rw [add, isBanned_of_isConsistent hs, if_neg Bool.false_ne_true, if_neg hself, hv]
    rfl

theorem Exchanged.bindVariable (h : Exchanged ρ s u) (hv : s.get? v = none)
    (ht : s.walk t = t) (ht' : u.walk t = t) (hexchange : t.exchange ρ = t) :
    Exchangeable (s.bindVariable v t) (u.bindVariable (ρ v) t) := by
  have hv' := h.get?_eq_none hv
  rw [bindVariable_of_unbound h.left_consistent hv, bindVariable_of_unbound h.right_consistent hv',
    h.mentions]
  split
  · exact Exchanged.ban s u v (ρ v)
  · rename_i hoccurs
    have hleft : v ∉ (s.apply t).occurrences := by simpa [Term.mentions] using hoccurs
    have hright : ρ v ∉ (u.apply t).occurrences := by
      rwa [h.right_acyclic.mem_apply_iff, h.ends_iff, ← h.left_acyclic.mem_apply_iff]
    refine .inr ⟨ρ, h.left_consistent, h.right_consistent, h.left_acyclic.bound hv hleft,
      h.right_acyclic.bound hv' hright, fun x ↦ ?_⟩
    rw [h.left_acyclic.walk_bound hv hleft ht, h.right_acyclic.walk_bound hv' hright ht', h.walk]
    cases s.walk x with
    | num n => rfl
    | app g xs => rfl
    | var w =>
      simp only [Term.exchange, Term.redirect, EmbeddingLike.apply_eq_iff_eq]
      split
      · exact hexchange.symm
      · rfl

/-- Two variables that meet: either may stand for the other one from then on. -/
theorem Exchanged.bindVariable_var (h : Exchanged ρ s u) (hv : s.get? v = none)
    (hw : s.get? w = none) (hne : v ≠ w) :
    Exchangeable (s.bindVariable v (.var w)) (u.bindVariable (ρ w) (.var (ρ v))) := by
  have hv' := h.get?_eq_none hv
  have hw' := h.get?_eq_none hw
  have hleft : v ∉ (s.apply (.var w)).occurrences := by
    simpa [s.apply_of_unbound hw, Term.occurrences] using hne
  have hright : ρ w ∉ (u.apply (.var (ρ v))).occurrences := by
    simpa [u.apply_of_unbound hv', Term.occurrences] using hne.symm
  rw [bindVariable_of_unbound h.left_consistent hv, bindVariable_of_unbound h.right_consistent hw',
    if_neg (by simpa [Term.mentions] using hleft), if_neg (by simpa [Term.mentions] using hright)]
  refine .inr ⟨(Equiv.swap v w).trans ρ, h.left_consistent, h.right_consistent,
    h.left_acyclic.bound hv hleft, h.right_acyclic.bound hw' hright, fun x ↦ ?_⟩
  rw [h.left_acyclic.walk_bound hv hleft (walk_of_unbound hw),
    h.right_acyclic.walk_bound hw' hright (walk_of_unbound hv'), h.walk]
  cases s.walk x with
  | num n => rfl
  | app g xs => rfl
  | var y =>
    simp only [Term.exchange, Term.redirect, EmbeddingLike.apply_eq_iff_eq]
    by_cases hyv : y = v
    · rw [if_pos hyv, if_neg (hyv ▸ hne), hyv]
      simp
    · rw [if_neg hyv]
      by_cases hyw : y = w
      · rw [if_pos hyw, hyw]
        simp
      · rw [if_neg hyw]
        simp [Equiv.swap_apply_of_ne_of_ne hyv hyw]

theorem Exchangeable.foldl_unifyWithin {n : ℕ}
    (hwithin : ∀ {l r : Term} {s u : Substitution}, Exchangeable s u →
      Exchangeable (unifyWithin n l r s) (unifyWithin n r l u)) {xs ys : List Term}
    (h : Exchangeable s u) :
    Exchangeable ((xs.zip ys).foldl (fun u (x, y) ↦ unifyWithin n x y u) s)
      ((ys.zip xs).foldl (fun u (x, y) ↦ unifyWithin n x y u) u) := by
  induction xs generalizing ys s u with
  | nil =>
    rw [List.zip_nil_left, List.zip_nil_right]
    exact h
  | cons x xs ih =>
    cases ys with
    | nil => exact h
    | cons y ys => exact ih (hwithin h)

theorem Exchangeable.unifyWithin (n : ℕ) (h : Exchangeable s u) :
    Exchangeable (unifyWithin n l r s) (unifyWithin n r l u) := by
  induction n generalizing l r s u with
  | zero => exact Exchanged.clash s u
  | succ n ih =>
    rw [Substitution.unifyWithin, Substitution.unifyWithin]
    obtain ⟨hs, hu⟩ | ⟨ρ, h⟩ := h
    · rw [if_pos (by simp [hs]), if_pos (by simp [hu])]
      exact .inl ⟨hs, hu⟩
    rw [if_neg (by simp [h.left_consistent]), if_neg (by simp [h.right_consistent]), h.walk,
      h.walk]
    have hunbound {t : Term} {v : Variable} (hv : s.walk t = .var v) :=
      h.left_acyclic.get?_of_walk hv
    cases hl : s.walk l with
    | var v =>
      cases hr : s.walk r with
      | var w =>
        simp only [Term.exchange, EmbeddingLike.apply_eq_iff_eq, eq_comm (a := w)]
        split
        · exact .inr ⟨ρ, h⟩
        · exact h.bindVariable_var (hunbound hl) (hunbound hr) ‹_›
      | num k => exact h.bindVariable (hunbound hl) rfl rfl rfl
      | app g ys => exact h.bindVariable (hunbound hl) rfl rfl rfl
    | num j =>
      cases hr : s.walk r with
      | var w => exact h.bindVariable (hunbound hr) rfl rfl rfl
      | num k =>
        have hsame : k.same j = j.same k :=
          Bool.eq_iff_iff.mpr ⟨Number.same_symm, Number.same_symm⟩
        simp only [Term.exchange, hsame]
        split
        · exact .inr ⟨ρ, h⟩
        · exact Exchanged.clash s u
      | app g ys => exact Exchanged.clash s u
    | app f xs =>
      cases hr : s.walk r with
      | var w => exact h.bindVariable (hunbound hr) rfl rfl rfl
      | num k => exact Exchanged.clash s u
      | app g ys =>
        simp only [Term.exchange, eq_comm (a := g), eq_comm (a := ys.length)]
        split
        · exact Exchangeable.foldl_unifyWithin ih (.inr ⟨ρ, h⟩)
        · exact Exchanged.clash s u

theorem Exchangeable.isConsistent (h : Exchangeable s u) : s.isConsistent = u.isConsistent := by
  obtain ⟨hs, hu⟩ | ⟨ρ, h⟩ := h
  · rw [hs, hu]
  · rw [h.left_consistent, h.right_consistent]

end Substitution

/-- Whether two terms unify does not depend on which of them comes first. -/
theorem Term.unifies_comm (t u : Term) : t.unifies u = u.unifies t := by
  have hdepth : Substitution.unifyDepth t u .empty = Substitution.unifyDepth u t .empty := by
    rw [Substitution.unifyDepth, Substitution.unifyDepth, Nat.add_comm t.size]
  rw [unifies, unifies, Substitution.unify, Substitution.unify, hdepth]
  have hstart : Substitution.empty.Exchangeable .empty := .inr ⟨_, Substitution.exchanged_empty⟩
  exact (Substitution.Exchangeable.unifyWithin _ hstart).isConsistent

end Argumentation
