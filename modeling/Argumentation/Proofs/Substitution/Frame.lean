import Argumentation.Proofs.Substitution.Evaluation
import Argumentation.Proofs.Substitution.Termination

namespace Argumentation

def Term.IsAbove (b : ℕ) (t : Term) : Prop :=
  ∀ v ∈ t.occurrences, b ≤ v.id

section IsAbove

variable {b : ℕ}

theorem Term.isAbove_var {v : Variable} : (Term.var v).IsAbove b ↔ b ≤ v.id := by
  simp [Term.IsAbove, Term.occurrences]

theorem Term.isAbove_app {g : Symbol} {xs : List Term} :
    (Term.app g xs).IsAbove b ↔ ∀ x ∈ xs, x.IsAbove b := by
  simp only [Term.IsAbove, Term.occurrences, Term.mem_occurrencesAll]
  constructor
  · intro h x hx v hv
    exact h v ⟨x, hx, hv⟩
  · rintro h v ⟨x, hx, hv⟩
    exact h x hx v hv

theorem Term.isAbove_bind {f : Variable → Term} {t : Term}
    (h : ∀ v ∈ t.occurrences, (f v).IsAbove b) : (t.bind f).IsAbove b := by
  intro w hw
  obtain ⟨v, hv, hw⟩ := Term.mem_occurrences_bind.mp hw
  exact h v hv w hw

end IsAbove

namespace Substitution

variable {b : ℕ} {s u s' u' : Substitution} {t l r : Term}

/-- The second substitution binds the variables with numbers from the bound on as the first one
does, and values never lead below the bound. -/
structure Framed (b : ℕ) (s u : Substitution) : Prop where
  left_consistent : s.isConsistent = true
  right_consistent : u.isConsistent = true
  left_acyclic : s.Acyclic
  right_acyclic : u.Acyclic
  agree : ∀ v : Variable, b ≤ v.id → u.get? v = s.get? v
  closed : ∀ v t, b ≤ v.id → s.get? v = some t → t.IsAbove b

def Parallel (b : ℕ) (s u : Substitution) : Prop :=
  s.isConsistent = false ∧ u.isConsistent = false ∨ Framed b s u

theorem Framed.apply_var (h : Framed b s u) (v : Variable) :
    b ≤ v.id → u.apply (.var v) = s.apply (.var v) ∧ (s.apply (.var v)).IsAbove b := by
  induction v using h.left_acyclic.induction with
  | step v ih =>
    intro hv
    have hagree := h.agree v hv
    cases ht : s.get? v with
    | none =>
      rw [u.apply_of_unbound (hagree.trans ht), s.apply_of_unbound ht]
      exact ⟨rfl, Term.isAbove_var.mpr hv⟩
    | some t =>
      have habove := h.closed v t hv ht
      rw [apply_of_bound h.right_acyclic (hagree.trans ht), apply_of_bound h.left_acyclic ht,
        u.apply_eq_bind, s.apply_eq_bind]
      have hvalue (w : Variable) (hw : w ∈ t.occurrences) := ih w ⟨t, ht, hw⟩ (habove w hw)
      exact ⟨Term.bind_congr fun w hw ↦ (hvalue w hw).1,
        Term.isAbove_bind fun w hw ↦ (hvalue w hw).2⟩

theorem Framed.apply (h : Framed b s u) (ht : t.IsAbove b) : u.apply t = s.apply t := by
  rw [u.apply_eq_bind, s.apply_eq_bind]
  exact Term.bind_congr fun v hv ↦ (h.apply_var v (ht v hv)).1

theorem Framed.isAbove_apply (h : Framed b s u) (ht : t.IsAbove b) : (s.apply t).IsAbove b := by
  rw [s.apply_eq_bind]
  exact Term.isAbove_bind fun v hv ↦ (h.apply_var v (ht v hv)).2

theorem Framed.walk_var (h : Framed b s u) (v : Variable) :
    b ≤ v.id → u.walk (.var v) = s.walk (.var v) := by
  induction v using h.left_acyclic.induction with
  | step v ih =>
    intro hv
    have hagree := h.agree v hv
    cases ht : s.get? v with
    | none =>
      rw [ht] at hagree
      simp only [walk, walkWithin, ht, hagree]
    | some t =>
      rw [h.right_acyclic.walk_of_bound (hagree.trans ht), h.left_acyclic.walk_of_bound ht]
      cases t with
      | var w => exact ih w ⟨_, ht, .head _⟩ (h.closed v _ hv ht w (.head _))
      | num k => rfl
      | app g xs => rfl

theorem Framed.walk (h : Framed b s u) (ht : t.IsAbove b) : u.walk t = s.walk t := by
  cases t with
  | var v => exact h.walk_var v (Term.isAbove_var.mp ht)
  | num k => rfl
  | app g xs => rfl

theorem Framed.isAbove_walk (h : Framed b s u) (ht : t.IsAbove b) : (s.walk t).IsAbove b :=
  walk_induction ht fun v w hw hv ↦ h.closed v w (Term.isAbove_var.mp hv) hw

theorem isBanned_of_isConsistent (h : s.isConsistent = true) (v : Variable) :
    s.isBanned v = false := by
  rw [isConsistent, Bool.and_eq_true, List.isEmpty_iff] at h
  rw [isBanned, h.1]
  rfl

theorem Framed.clash (s u : Substitution) : Parallel b s.clash u.clash :=
  .inl ⟨s.not_isConsistent_clash, u.not_isConsistent_clash⟩

theorem Framed.ban (s u : Substitution) (v : Variable) : Parallel b (s.ban v) (u.ban v) :=
  .inl ⟨s.not_isConsistent_ban v, u.not_isConsistent_ban v⟩

theorem Framed.bound (h : Framed b s u) {v : Variable} (hv : b ≤ v.id) (hunbound : s.get? v = none)
    (ht : t.IsAbove b) (hoccurs : v ∉ (s.apply t).occurrences) :
    Framed b (s.bound v t) (u.bound v t) where
  left_consistent := h.left_consistent
  right_consistent := h.right_consistent
  left_acyclic := h.left_acyclic.bound hunbound hoccurs
  right_acyclic := by
    refine h.right_acyclic.bound ((h.agree v hv).trans hunbound) ?_
    rwa [h.apply ht]
  agree := by
    intro w hw
    rw [get?_bound, get?_bound, h.agree w hw]
  closed := by
    intro w x hw hx
    rw [get?_bound] at hx
    split at hx
    · cases hx
      exact ht
    · exact h.closed w x hw hx

theorem Framed.add (h : Framed b s u) {v : Variable} (hv : b ≤ v.id) (ht : t.IsAbove b)
    (hoccurs : v ∉ (s.apply t).occurrences) : Parallel b (s.add v t) (u.add v t) := by
  unfold Substitution.add
  rw [isBanned_of_isConsistent h.left_consistent, isBanned_of_isConsistent h.right_consistent,
    h.agree v hv]
  simp only [Bool.false_eq_true, if_false]
  split
  · exact .inr h
  · cases hw : s.get? v with
    | none => exact .inr (h.bound hv hw ht hoccurs)
    | some w =>
      dsimp only
      split
      · exact .inr h
      · exact Framed.ban s u v

theorem Framed.bindVariable (h : Framed b s u) {v : Variable} (hv : b ≤ v.id) (ht : t.IsAbove b) :
    Parallel b (s.bindVariable v t) (u.bindVariable v t) := by
  unfold Substitution.bindVariable
  rw [h.apply ht]
  split
  · exact Framed.ban s u v
  · rename_i hoccurs
    refine h.add hv ht fun hmem ↦ hoccurs ?_
    simpa [Term.mentions] using hmem

def KeepsParallel (b : ℕ) (f : Term → Term → Substitution → Option Substitution) : Prop :=
  ∀ {l r s u s' u'}, l.IsAbove b → r.IsAbove b → Parallel b s u → f l r s = some s' →
    f l r u = some u' → Parallel b s' u'

section Steps

variable {f : Term → Term → Substitution → Option Substitution}

theorem KeepsParallel.foldlM (hf : KeepsParallel b f) {ps : List (Term × Term)}
    (hps : ∀ p ∈ ps, p.1.IsAbove b ∧ p.2.IsAbove b) (h : Parallel b s u)
    (hs : ps.foldlM (fun w p ↦ f p.1 p.2 w) s = some s')
    (hu : ps.foldlM (fun w p ↦ f p.1 p.2 w) u = some u') : Parallel b s' u' := by
  induction ps generalizing s u with
  | nil =>
    cases hs
    cases hu
    exact h
  | cons p ps ih =>
    rw [List.foldlM_cons] at hs hu
    obtain ⟨x, hx, hs⟩ := Option.bind_eq_some_iff.mp hs
    obtain ⟨y, hy, hu⟩ := Option.bind_eq_some_iff.mp hu
    obtain ⟨hl, hr⟩ := hps p (.head _)
    exact ih (fun q hq ↦ hps q (.tail _ hq)) (hf hl hr h hx hy) hs hu

/-- The two unifications walk to the same terms, and so they take the same step. -/
theorem KeepsParallel.unifyStep (hf : KeepsParallel b f) (h : Framed b s u) (hl : l.IsAbove b)
    (hr : r.IsAbove b) (hs : unifyStep f l r s = some s') (hu : unifyStep f l r u = some u') :
    Parallel b s' u' := by
  have hwl := h.isAbove_walk hl
  have hwr := h.isAbove_walk hr
  rw [Substitution.unifyStep, if_neg (by simp [h.left_consistent])] at hs
  rw [Substitution.unifyStep, if_neg (by simp [h.right_consistent]), h.walk hl, h.walk hr] at hu
  generalize s.walk l = a at hs hu hwl
  generalize s.walk r = c at hs hu hwr
  cases a with
  | var v =>
    have hv := Term.isAbove_var.mp hwl
    cases c <;> cases hs <;> cases hu
    · split
      · exact .inr h
      · exact h.bindVariable hv hwr
    · exact h.bindVariable hv hwr
    · exact h.bindVariable hv hwr
  | num j =>
    cases c <;> cases hs <;> cases hu
    · exact h.bindVariable (Term.isAbove_var.mp hwr) hwl
    · split
      · exact .inr h
      · exact Framed.clash s u
    · exact Framed.clash s u
  | app g xs =>
    cases c with
    | var w =>
      cases hs
      cases hu
      exact h.bindVariable (Term.isAbove_var.mp hwr) hwl
    | num k =>
      cases hs
      cases hu
      exact Framed.clash s u
    | app c ys =>
      simp only at hs hu
      split at hs
      · rw [if_pos ‹_›] at hu
        refine hf.foldlM (fun p hp ↦ ?_) (.inr h) hs hu
        obtain ⟨hx, hy⟩ := List.of_mem_zip hp
        exact ⟨Term.isAbove_app.mp hwl p.1 hx, Term.isAbove_app.mp hwr p.2 hy⟩
      · rw [if_neg ‹_›] at hu
        cases hs
        cases hu
        exact Framed.clash s u

theorem unifyUntil_keepsParallel (n : ℕ) : KeepsParallel b (unifyUntil n) := by
  induction n with
  | zero =>
    intro l r s u s' u' hl hr h hs hu
    cases hs
  | succ n ih =>
    intro l r s u s' u' hl hr h hs hu
    rcases h with ⟨hs', hu'⟩ | h
    · rw [unifyUntil_inconsistent hs' (Nat.succ_pos n)] at hs
      rw [unifyUntil_inconsistent hu' (Nat.succ_pos n)] at hu
      cases hs
      cases hu
      exact .inl ⟨hs', hu'⟩
    · exact ih.unifyStep h hl hr hs hu

end Steps

theorem Framed.unify (h : Framed b s u) (hl : l.IsAbove b) (hr : r.IsAbove b) :
    Parallel b (s.unify l r) (u.unify l r) := by
  have hs := h.left_acyclic.unifyUntil_eq (l := l) (r := r)
    (Nat.le_max_left (unifyDepth l r s) (unifyDepth l r u))
  have hu := h.right_acyclic.unifyUntil_eq (l := l) (r := r)
    (Nat.le_max_right (unifyDepth l r s) (unifyDepth l r u))
  exact unifyUntil_keepsParallel _ hl hr (.inr h) hs hu

end Substitution

namespace Evaluation

open Substitution

variable {b : ℕ} {s u : Substitution}

inductive Parallel (b : ℕ) : Evaluation → Evaluation → Prop where
  | succeeded {s u : Substitution} : Framed b s u → Parallel b (.succeeded s) (.succeeded u)
  | failed : Parallel b .failed .failed
  | lookup : Parallel b .lookup .lookup

theorem ofBool_parallel (h : Framed b s u) (holds : Bool) :
    Parallel b (ofBool holds s) (ofBool holds u) := by
  cases holds with
  | true => exact .succeeded h
  | false => exact .failed

theorem ofIs_parallel (h : Framed b s u) {l : Term} (hl : l.IsAbove b) (r : Term) :
    Parallel b (ofIs l r s) (ofIs l r u) := by
  unfold ofIs
  cases r.evaluate with
  | none => exact .failed
  | some value =>
    cases l with
    | var v =>
      have hvalue : (Term.num value).IsAbove b := fun w hw ↦ by cases hw
      have hoccurs : v ∉ (s.apply (.num value)).occurrences := fun hv ↦ by cases hv
      dsimp only
      rcases h.add (Term.isAbove_var.mp hl) hvalue hoccurs with ⟨hs, hu⟩ | hadd
      · rw [hs, hu]
        exact .failed
      · rw [hadd.left_consistent, hadd.right_consistent]
        exact .succeeded hadd
    | num n => exact ofBool_parallel h _
    | app g xs => exact .failed

theorem ofComparison_parallel (h : Framed b s u) (rel : Comparison) (l r : Term) :
    Parallel b (ofComparison rel l r s) (ofComparison rel l r u) := by
  unfold ofComparison
  split
  · exact ofBool_parallel h _
  · exact .failed

end Evaluation

theorem Operator.evaluate_parallel {b : ℕ} {s u : Substitution} (h : s.Framed b u) (op : Operator)
    {args : List Term} (hargs : ∀ x ∈ args, x.IsAbove b) :
    Evaluation.Parallel b (op.evaluate args s) (op.evaluate args u) := by
  have happlied : args.map u.apply = args.map s.apply :=
    List.map_congr_left fun x hx ↦ h.apply (hargs x hx)
  have habove : ∀ x ∈ args.map s.apply, x.IsAbove b := by
    intro x hx
    obtain ⟨y, hy, rfl⟩ := List.mem_map.mp hx
    exact h.isAbove_apply (hargs y hy)
  unfold evaluate
  rw [happlied]
  split
  · split
    · exact .succeeded h
    · exact .lookup
  · exact Evaluation.ofBool_parallel h _
  · exact Evaluation.ofBool_parallel h _
  · rename_i l r hlr
    rw [hlr] at habove
    exact Evaluation.ofIs_parallel h (habove l (.head _)) r
  · exact Evaluation.ofBool_parallel h _
  · exact .lookup
  · exact Evaluation.ofComparison_parallel h _ _ _
  · exact .failed

end Argumentation
