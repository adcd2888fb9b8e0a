import Argumentation.Proofs.Substitution.Frame
import Argumentation.Proofs.Substitution.Termination
import Argumentation.Proofs.Term.Instance

namespace Argumentation.Substitution

variable {N : Number → Number → Prop} {number : Number → Bool} {f : Variable → Term}
  {s u : Substitution} {l r t : Term}

structure Solved (N : Number → Number → Prop) (number : Number → Bool) (f : Variable → Term)
    (s : Substitution) : Prop where
  acyclic : s.Acyclic
  consistent : s.isConsistent = true
  values : s.ConsistsOf (fun _ ↦ true) number
  holds : ∀ v t, s.get? v = some t → (f v).Alike N (t.instantiate f)

theorem solved_empty : empty.Solved N number f :=
  ⟨acyclic_empty, rfl, consistsOf_empty, fun _ _ h ↦ by cases h⟩

theorem Solved.walk (hN : Equivalence N) (h : s.Solved N number f) (t : Term) :
    (t.instantiate f).Alike N ((s.walk t).instantiate f) :=
  walk_induction (motive := fun w ↦ (t.instantiate f).Alike N (w.instantiate f)) (.refl hN _)
    fun v w hw hv ↦ hv.trans hN (h.holds v w hw)

/-- The images of variables that a value leads to are no larger than the variable's own image. -/
theorem Solved.size_le (h : s.Solved N number f) {v w : Variable}
    (hv : v ∈ (s.apply (.var w)).occurrences) : (f v).size ≤ (f w).size := by
  induction w using h.acyclic.induction with
  | step w ih =>
    cases hw : s.get? w with
    | none =>
      rw [s.apply_of_unbound hw] at hv
      rw [List.mem_singleton.mp hv]
    | some t =>
      rw [apply_of_bound h.acyclic hw, apply_eq_bind, Term.mem_occurrences_bind] at hv
      obtain ⟨x, hx, hv⟩ := hv
      have hle := Term.size_image_le hx f
      rw [← (h.holds w t hw).size] at hle
      exact (ih x ⟨t, hw, hx⟩ hv).trans hle

/-- If a variable has an image like a term's, it does not occur in its value. -/
theorem Solved.not_mem_apply (h : s.Solved N number f) {v : Variable}
    (hvar : ∀ w, t = .var w → s.get? w = none ∧ v ≠ w)
    (halike : (f v).Alike N (t.instantiate f)) : v ∉ (s.apply t).occurrences := by
  intro hv
  cases t with
  | var w =>
    obtain ⟨hw, hne⟩ := hvar w rfl
    rw [s.apply_of_unbound hw] at hv
    exact hne (List.mem_singleton.mp hv)
  | num n => cases hv
  | app g xs =>
    rw [apply_eq_bind, Term.mem_occurrences_bind] at hv
    obtain ⟨x, hx, hv⟩ := hv
    have hlt := Term.size_image_lt hx f
    rw [← halike.size] at hlt
    exact Nat.not_lt_of_le (h.size_le hv) hlt

theorem Solved.bindVariable (h : s.Solved N number f) {v : Variable} (hv : s.get? v = none)
    (hvar : ∀ w, t = .var w → s.get? w = none ∧ v ≠ w)
    (ht : t.consistsOf (fun _ ↦ true) number = true) (halike : (f v).Alike N (t.instantiate f)) :
    (s.bindVariable v t).Solved N number f := by
  have hoccurs := h.not_mem_apply hvar halike
  have hself : t.same (.var v) = false := by
    cases t with
    | var w => simpa [Term.same] using (hvar w rfl).2.symm
    | num n => rfl
    | app g xs => rfl
  have hbound : s.bindVariable v t = s.bound v t := by
    rw [Substitution.bindVariable, if_neg (by simpa [Term.mentions] using hoccurs), add,
      isBanned_of_isConsistent h.consistent, hself, hv]
    rfl
  rw [hbound]
  refine ⟨h.acyclic.bound hv hoccurs, h.consistent, h.values.bound v ht, fun w x hw ↦ ?_⟩
  rw [get?_bound] at hw
  split at hw
  · rename_i hwv
    cases hw
    exact hwv ▸ halike
  · exact h.holds w x hw

def Completes (N : Number → Number → Prop) (number : Number → Bool) (f : Variable → Term)
    (p : Term → Term → Substitution → Option Substitution) : Prop :=
  ∀ {l r s u}, s.Solved N number f → l.consistsOf (fun _ ↦ true) number = true →
    r.consistsOf (fun _ ↦ true) number = true →
    (l.instantiate f).Alike N (r.instantiate f) → p l r s = some u → u.Solved N number f

section Steps

variable {p : Term → Term → Substitution → Option Substitution}

theorem Completes.foldlM (hp : Completes N number f p) {xs ys : List Term}
    (h : s.Solved N number f) (hxs : ∀ x ∈ xs, x.consistsOf (fun _ ↦ true) number = true)
    (hys : ∀ y ∈ ys, y.consistsOf (fun _ ↦ true) number = true)
    (halike : List.Forall₂ (fun x y ↦ (x.instantiate f).Alike N (y.instantiate f)) xs ys)
    (hu : (xs.zip ys).foldlM (fun w e ↦ p e.1 e.2 w) s = some u) : u.Solved N number f := by
  induction halike generalizing s with
  | nil =>
    cases hu
    exact h
  | cons hxy _ ih =>
    rw [List.zip_cons_cons, List.foldlM_cons] at hu
    obtain ⟨w, hw, hu⟩ := Option.bind_eq_some_iff.mp hu
    obtain ⟨hx, hxs⟩ := List.forall_mem_cons.mp hxs
    obtain ⟨hy, hys⟩ := List.forall_mem_cons.mp hys
    exact ih (hp h hx hy hxy hw) hxs hys hu

theorem Completes.unifyStep (hN : Equivalence N)
    (hnumber : ∀ {m n}, number m = true → number n = true → N m n → m.same n = true)
    (hp : Completes N number f p) : Completes N number f (unifyStep p) := by
  intro l r s u h hl hr halike hu
  have hwl := h.values.walk hl
  have hwr := h.values.walk hr
  have hwalk := ((h.walk hN l).symm hN).trans hN (halike.trans hN (h.walk hN r))
  have hunbound {t : Term} {v : Variable} (hv : s.walk t = .var v) := h.acyclic.get?_of_walk hv
  rw [Substitution.unifyStep, if_neg (by simp [h.consistent])] at hu
  clear halike hl hr
  -- A side that has led to a variable is bound to the other one; terms that are alike have one
  -- head.
  cases hleft : s.walk l with
  | var v =>
    rw [hleft] at hu hwalk hwl
    cases hright : s.walk r with
    | var w =>
      rw [hright] at hu hwalk hwr
      cases hu
      split
      · exact h
      · refine h.bindVariable (hunbound hleft) (fun x hx ↦ ?_) hwr hwalk
        cases hx
        exact ⟨hunbound hright, ‹_›⟩
    | num n =>
      rw [hright] at hu hwalk hwr
      cases hu
      exact h.bindVariable (hunbound hleft) (fun x hx ↦ by cases hx) hwr hwalk
    | app g ys =>
      rw [hright] at hu hwalk hwr
      cases hu
      exact h.bindVariable (hunbound hleft) (fun x hx ↦ by cases hx) hwr hwalk
  | num m =>
    rw [hleft] at hu hwalk hwl
    cases hright : s.walk r with
    | var w =>
      rw [hright] at hu hwalk
      cases hu
      exact h.bindVariable (hunbound hright) (fun x hx ↦ by cases hx) hwl (hwalk.symm hN)
    | num n =>
      rw [hright] at hu hwalk hwr
      cases hwalk with
      | num hmn =>
        simp only [hnumber hwl hwr hmn, if_true] at hu
        cases hu
        exact h
    | app g ys =>
      rw [hright] at hwalk
      cases hwalk
  | app g xs =>
    rw [hleft] at hu hwalk hwl
    cases hright : s.walk r with
    | var w =>
      rw [hright] at hu hwalk
      cases hu
      exact h.bindVariable (hunbound hright) (fun x hx ↦ by cases hx) hwl (hwalk.symm hN)
    | num n =>
      rw [hright] at hwalk
      cases hwalk
    | app c ys =>
      rw [hright] at hu hwalk hwr
      rw [Term.instantiate, Term.instantiate, Term.instantiateAll_eq_map,
        Term.instantiateAll_eq_map] at hwalk
      cases hwalk with
      | app _ hargs =>
        rw [List.forall₂_map_left_iff, List.forall₂_map_right_iff] at hargs
        simp only [hargs.length_eq, and_self, if_true] at hu
        exact hp.foldlM h (Term.consistsOf_app.mp hwl).2 (Term.consistsOf_app.mp hwr).2 hargs hu

theorem unifyUntil_completes (hN : Equivalence N)
    (hnumber : ∀ {m n}, number m = true → number n = true → N m n → m.same n = true) (n : ℕ) :
    Completes N number f (unifyUntil n) := by
  induction n with
  | zero =>
    intro l r s u _ _ _ _ hu
    cases hu
  | succ n ih => exact ih.unifyStep hN hnumber

end Steps

/-- A solution of the bindings so far and of the two terms is a solution of the new bindings. -/
theorem Solved.unify (hN : Equivalence N)
    (hnumber : ∀ {m n}, number m = true → number n = true → N m n → m.same n = true)
    (h : s.Solved N number f) (hl : l.consistsOf (fun _ ↦ true) number = true)
    (hr : r.consistsOf (fun _ ↦ true) number = true)
    (halike : (l.instantiate f).Alike N (r.instantiate f)) : (s.unify l r).Solved N number f :=
  unifyUntil_completes hN hnumber _ h hl hr halike (h.acyclic.unifyUntil_eq (Nat.le_refl _))

end Argumentation.Substitution
