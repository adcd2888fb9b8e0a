import Argumentation.Proofs.Substitution.Acyclic
import Argumentation.Proofs.Term.Congruence
import Argumentation.Substitution.Unify

namespace Argumentation.Substitution

/-- How equations are solved one after another from a substitution; the arguments of two
applications are solved before the equations that follow. -/
inductive Solves : List (Term × Term) → Substitution → Substitution → Prop
  | nil (s : Substitution) : Solves [] s s
  | skip {s u : Substitution} {l r : Term} {es : List (Term × Term)} :
      s.isConsistent = false → Solves es s u → Solves ((l, r) :: es) s u
  | clash {s u : Substitution} {l r : Term} {es : List (Term × Term)} :
      Solves es s.clash u → Solves ((l, r) :: es) s u
  | same {s u : Substitution} {l r : Term} {es : List (Term × Term)} :
      (s.walk l).same (s.walk r) = true → Solves es s u → Solves ((l, r) :: es) s u
  | left {s u : Substitution} {l r : Term} {es : List (Term × Term)} {v : Variable} :
      s.walk l = .var v → Solves es (s.bindVariable v (s.walk r)) u → Solves ((l, r) :: es) s u
  | right {s u : Substitution} {l r : Term} {es : List (Term × Term)} {v : Variable} :
      s.walk r = .var v → Solves es (s.bindVariable v (s.walk l)) u → Solves ((l, r) :: es) s u
  | arguments {s u : Substitution} {l r : Term} {es : List (Term × Term)} {g : Symbol}
      {xs ys : List Term} :
      s.walk l = .app g xs → s.walk r = .app g ys → xs.length = ys.length →
      Solves (xs.zip ys ++ es) s u → Solves ((l, r) :: es) s u

variable {s u : Substitution} {es : List (Term × Term)}

theorem Solves.foldl_unifyWithin {n : ℕ}
    (hwithin : ∀ {l r s es}, Solves es (unifyWithin n l r s) u → Solves ((l, r) :: es) s u)
    {ps : List (Term × Term)} (h : Solves es (ps.foldl (fun u (x, y) ↦ unifyWithin n x y u) s) u) :
    Solves (ps ++ es) s u := by
  induction ps generalizing s with
  | nil => exact h
  | cons p ps ih => exact hwithin (ih h)

theorem Solves.unifyWithin {n : ℕ} {l r : Term} (h : Solves es (unifyWithin n l r s) u) :
    Solves ((l, r) :: es) s u := by
  induction n generalizing l r s es with
  | zero => exact .clash h
  | succ n ih =>
    rw [Substitution.unifyWithin] at h
    split at h
    · rename_i hs
      exact .skip (by simpa using hs) h
    split at h
    · rename_i v w hl hr
      split at h
      · rename_i hvw
        exact .same (by rw [hl, hr, hvw, Term.same, beq_self_eq_true]) h
      · exact .left hl (hr ▸ h)
    · rename_i v t hl _
      exact .left hl h
    · rename_i v hr _
      exact .right hr h
    · rename_i a b hl hr
      split at h
      · rename_i hab
        exact .same (by rw [hl, hr, Term.same, hab]) h
      · exact .clash h
    · rename_i f xs g ys hl hr
      split at h
      · rename_i hfg
        exact .arguments hl (hfg.1 ▸ hr) hfg.2 (.foldl_unifyWithin ih h)
      · exact .clash h
    · exact .clash h

theorem solves_unifyWithin (n : ℕ) (l r : Term) (s : Substitution) :
    Solves [(l, r)] s (Substitution.unifyWithin n l r s) :=
  .unifyWithin (.nil _)

theorem solves_unify (s : Substitution) (l r : Term) : Solves [(l, r)] s (s.unify l r) :=
  solves_unifyWithin _ l r s

/-- What a clash and a variable's binding leave true is true when all equations are solved. -/
theorem Solves.induction {motive : Substitution → Prop} (h : Solves es s u) (hs : motive s)
    (clash : ∀ s, motive s → motive s.clash)
    (bindVariable : ∀ s v t, motive s → motive (s.bindVariable v t)) : motive u := by
  induction h with
  | nil s => exact hs
  | skip _ _ ih => exact ih hs
  | clash _ ih => exact ih (clash _ hs)
  | same _ _ ih => exact ih hs
  | left _ _ ih => exact ih (bindVariable _ _ _ hs)
  | right _ _ ih => exact ih (bindVariable _ _ _ hs)
  | arguments _ _ _ _ ih => exact ih hs

theorem bindVariable_cases (s : Substitution) (v : Variable) (t : Term) :
    (s.bindVariable v t = s ∧ (s.isBanned v = true ∨ t.same (.var v) = true ∨
      ∃ u, s.get? v = some u ∧ u.same t = true)) ∨
    (s.bindVariable v t = s.bound v t ∧ s.get? v = none ∧ v ∉ (s.apply t).occurrences) ∨
    s.bindVariable v t = s.ban v := by
  unfold bindVariable
  split
  · exact .inr (.inr rfl)
  · rename_i hoccurs
    rcases s.add_cases v t with h | ⟨h, hv⟩ | h
    · exact .inl h
    · refine .inr (.inl ⟨h, hv, fun hmem ↦ hoccurs ?_⟩)
      simpa [Term.mentions] using hmem
    · exact .inr (.inr h)

theorem Acyclic.bindVariable (hs : s.Acyclic) (v : Variable) (t : Term) :
    (s.bindVariable v t).Acyclic := by
  rcases s.bindVariable_cases v t with ⟨h, -⟩ | ⟨h, hv, hoccurs⟩ | h
  · rwa [h]
  · rw [h]
    exact hs.bound hv hoccurs
  · rw [h]
    exact hs.of_extends (s.extends_ban v)

theorem Solves.acyclic (h : Solves es s u) (hs : s.Acyclic) : u.Acyclic :=
  h.induction hs (fun _ hs ↦ hs) fun _ v t hs ↦ hs.bindVariable v t

theorem bindVariable_extends {v : Variable} {t : Term}
    (h : (s.bindVariable v t).isConsistent = true) :
    s.isConsistent = true ∧ (s.bindVariable v t).Extends s := by
  rcases s.bindVariable_cases v t with ⟨heq, -⟩ | ⟨heq, hv, -⟩ | heq
  · rw [heq] at h ⊢
    exact ⟨h, .refl s⟩
  · rw [heq] at h ⊢
    exact ⟨h, extends_bound hv t⟩
  · rw [heq, not_isConsistent_ban] at h
    cases h

theorem Solves.extends (h : Solves es s u) (hu : u.isConsistent = true) :
    s.isConsistent = true ∧ u.Extends s := by
  induction h with
  | nil s => exact ⟨hu, .refl s⟩
  | skip _ _ ih => exact ih hu
  | clash _ ih =>
    have hclash := (ih hu).1
    simp [Substitution.clash, isConsistent] at hclash
  | same _ _ ih => exact ih hu
  | left _ _ ih | right _ _ ih =>
    obtain ⟨hb, he⟩ := ih hu
    obtain ⟨hs, hb⟩ := bindVariable_extends hb
    exact ⟨hs, he.trans hb⟩
  | arguments _ _ _ _ ih => exact ih hu

theorem Acyclic.unify (hs : s.Acyclic) (l r : Term) : (s.unify l r).Acyclic :=
  (s.solves_unify l r).acyclic hs

theorem unify_extends {l r : Term} (h : (s.unify l r).isConsistent = true) :
    (s.unify l r).Extends s :=
  ((s.solves_unify l r).extends h).2

/-- What holds of a term, and of the value of each variable that it holds of, holds of what the term
stands for. -/
theorem walk_induction {motive : Term → Prop} {t : Term} (ht : motive t)
    (step : ∀ v w, s.get? v = some w → motive (.var v) → motive w) : motive (s.walk t) := by
  have hwithin (n : ℕ) (t : Term) (ht : motive t) : motive (s.walkWithin n t) := by
    induction n generalizing t with
    | zero => exact ht
    | succ n ih =>
      cases t with
      | var v =>
        rw [walkWithin]
        cases hv : s.get? v with
        | none => exact ht
        | some w => exact ih w (step v w hv ht)
      | num n => exact ht
      | app g xs => exact ht
  exact hwithin _ t ht

section Values

variable {symbol : Symbol → Bool} {number : Number → Bool}

def ConsistsOf (symbol : Symbol → Bool) (number : Number → Bool) (s : Substitution) : Prop :=
  ∀ v t, s.get? v = some t → t.consistsOf symbol number = true

theorem consistsOf_empty : ConsistsOf symbol number empty := by
  intro v t h
  cases h

theorem ConsistsOf.walk (hs : s.ConsistsOf symbol number) {t : Term}
    (ht : t.consistsOf symbol number = true) : (s.walk t).consistsOf symbol number = true :=
  walk_induction ht fun v w hv _ ↦ hs v w hv

theorem ConsistsOf.of_extends (hu : u.ConsistsOf symbol number) (h : u.Extends s) :
    s.ConsistsOf symbol number :=
  fun v t hv ↦ hu v t (h v t hv)

theorem ConsistsOf.bound (hs : s.ConsistsOf symbol number) (v : Variable) {t : Term}
    (ht : t.consistsOf symbol number = true) : (s.bound v t).ConsistsOf symbol number := by
  intro w u hw
  rw [get?_bound] at hw
  split at hw
  · cases hw
    exact ht
  · exact hs w u hw

theorem ConsistsOf.bindVariable (hs : s.ConsistsOf symbol number) (v : Variable) {t : Term}
    (ht : t.consistsOf symbol number = true) : (s.bindVariable v t).ConsistsOf symbol number := by
  rcases s.bindVariable_cases v t with ⟨h, -⟩ | ⟨h, -, -⟩ | h
  · rwa [h]
  · rw [h]
    exact hs.bound v ht
  · rw [h]
    exact hs.of_extends (s.extends_ban v)

theorem consistsOf_zip {xs ys : List Term} {g c : Symbol}
    (hx : (Term.app g xs).consistsOf symbol number = true)
    (hy : (Term.app c ys).consistsOf symbol number = true) {e : Term × Term}
    (he : e ∈ xs.zip ys) :
    e.1.consistsOf symbol number = true ∧ e.2.consistsOf symbol number = true := by
  have hmem := List.of_mem_zip he
  exact ⟨(Term.consistsOf_app.mp hx).2 _ hmem.1, (Term.consistsOf_app.mp hy).2 _ hmem.2⟩

theorem Solves.consistsOf (h : Solves es s u) (hs : s.ConsistsOf symbol number)
    (hes : ∀ e ∈ es, e.1.consistsOf symbol number = true ∧ e.2.consistsOf symbol number = true) :
    u.ConsistsOf symbol number := by
  induction h with
  | nil s => exact hs
  | skip _ _ ih => exact ih hs fun e he ↦ hes e (.tail _ he)
  | clash _ ih => exact ih hs fun e he ↦ hes e (.tail _ he)
  | same _ _ ih => exact ih hs fun e he ↦ hes e (.tail _ he)
  | left _ _ ih =>
    exact ih (hs.bindVariable _ (hs.walk (hes _ (.head _)).2)) fun e he ↦ hes e (.tail _ he)
  | right _ _ ih =>
    exact ih (hs.bindVariable _ (hs.walk (hes _ (.head _)).1)) fun e he ↦ hes e (.tail _ he)
  | arguments hl hr _ _ ih =>
    refine ih hs fun e he ↦ ?_
    obtain ⟨hxs, hys⟩ := hes _ (.head _)
    rcases List.mem_append.mp he with he | he
    · exact consistsOf_zip (hl ▸ hs.walk hxs) (hr ▸ hs.walk hys) he
    · exact hes e (.tail _ he)

theorem ConsistsOf.unify (hs : s.ConsistsOf symbol number) {l r : Term}
    (hl : l.consistsOf symbol number = true) (hr : r.consistsOf symbol number = true) :
    (s.unify l r).ConsistsOf symbol number :=
  (s.solves_unify l r).consistsOf hs (by simp [hl, hr])

theorem ConsistsOf.apply (hfold : Term.FoldsWithin symbol number)
    (hs : s.ConsistsOf symbol number) {t : Term} (ht : t.consistsOf symbol number = true) :
    (s.apply t).consistsOf symbol number = true := by
  have hfollow (n : ℕ) (b : Bindings)
      (hb : ∀ v t, b.lookup v = some t → t.consistsOf symbol number = true) (v : Variable) :
      (Bindings.follow n b v).consistsOf symbol number = true := by
    induction n generalizing b v with
    | zero => rfl
    | succ n ih =>
      rw [Bindings.follow]
      cases hv : b.lookup v with
      | none => rfl
      | some t =>
        refine Term.consistsOf_bind hfold (ih _ fun w u hw ↦ ?_) (hb v t hv)
        exact hb w u (Bindings.lookup_of_lookup_without hw)
  exact Term.consistsOf_bind hfold (hfollow _ _ hs) ht

end Values

abbrev IsExact (s : Substitution) : Prop :=
  s.ConsistsOf (fun _ ↦ true) Number.isInt

theorem apply_walk (hs : s.Acyclic) (t : Term) : s.apply (s.walk t) = s.apply t :=
  walk_induction (motive := fun w ↦ s.apply w = s.apply t) rfl fun _ _ hv h ↦
    (apply_of_bound hs hv).symm.trans h

section Related

variable {R E : Term → Term → Prop} {symbol : Symbol → Bool} {number : Number → Bool}

/-- An equivalence of terms that goes through applications and relates all bound variables to their
values; it also relates what compares as the same, at least among terms of the given kinds. -/
structure Identifies (symbol : Symbol → Bool) (number : Number → Bool) (u : Substitution)
    (E : Term → Term → Prop) : Prop extends Equivalence E where
  same : ∀ {t w : Term}, t.consistsOf symbol number = true → t.same w = true → E t w
  bound : ∀ {v : Variable} {t : Term}, u.get? v = some t → E (.var v) t
  app : ∀ g {xs ys : List Term}, xs.length = ys.length → (∀ e ∈ xs.zip ys, E e.1 e.2) →
    E (.app g xs) (.app g ys)

theorem Identifies.walk (hE : u.Identifies symbol number E) (h : u.Extends s) (t : Term) :
    E (s.walk t) t :=
  walk_induction (motive := fun w ↦ E w t) (hE.refl t) fun v w hv hvar ↦
    hE.trans (hE.symm (hE.bound (h v w hv))) hvar

theorem Identifies.bindVariable (hE : u.Identifies symbol number E)
    (hvalues : s.ConsistsOf symbol number) {v : Variable} {t : Term}
    (ht : t.consistsOf symbol number = true) (hc : (s.bindVariable v t).isConsistent = true)
    (h : u.Extends (s.bindVariable v t)) : E (.var v) t := by
  rcases s.bindVariable_cases v t with ⟨heq, hkept⟩ | ⟨heq, -, -⟩ | heq
  · rw [heq] at hc h
    rcases hkept with hbanned | htv | ⟨w, hw, hwt⟩
    · cases hb : s.banned <;> simp_all [isBanned, isConsistent]
    · exact hE.symm (hE.same ht htv)
    · exact hE.trans (hE.bound (h v w hw)) (hE.same (hvalues v w hw) hwt)
  · exact hE.bound (h v t (by rw [heq, get?_bound, if_pos rfl]))
  · rw [heq, not_isConsistent_ban] at hc
    cases hc

/-- Whatever identifies the variables that are bound in the end with their values identifies the
sides of all equations. -/
theorem Solves.related (h : Solves es s u) (hE : u.Identifies symbol number E)
    (hvalues : s.ConsistsOf symbol number)
    (hes : ∀ e ∈ es, e.1.consistsOf symbol number = true ∧ e.2.consistsOf symbol number = true)
    (hu : u.isConsistent = true) : ∀ e ∈ es, E e.1 e.2 := by
  have hmeet {es : List (Term × Term)} {s u : Substitution} {l r : Term}
      (hE : u.Identifies symbol number E) (h : Solves es s u) (hu : u.isConsistent = true)
      (hlr : E (s.walk l) (s.walk r)) : E l r :=
    hE.trans (hE.symm (hE.walk (h.extends hu).2 l)) (hE.trans hlr (hE.walk (h.extends hu).2 r))
  induction h with
  | nil s => simp
  | skip hc hrest _ =>
    rw [(hrest.extends hu).1] at hc
    cases hc
  | clash hrest _ =>
    have hc := (hrest.extends hu).1
    simp [Substitution.clash, isConsistent] at hc
  | same hlr hrest ih =>
    obtain ⟨⟨hl, -⟩, hes⟩ := List.forall_mem_cons.mp hes
    refine List.forall_mem_cons.mpr ⟨?_, ih hE hvalues hes hu⟩
    exact hmeet hE hrest hu (hE.same (hvalues.walk hl) hlr)
  | left hv hrest ih =>
    obtain ⟨⟨-, hr⟩, hes⟩ := List.forall_mem_cons.mp hes
    have hw := hvalues.walk hr
    have hbound := hrest.extends hu
    refine List.forall_mem_cons.mpr ⟨?_, ih hE (hvalues.bindVariable _ hw) hes hu⟩
    refine hmeet hE (.left hv hrest) hu ?_
    rw [hv]
    exact hE.bindVariable hvalues hw hbound.1 hbound.2
  | right hv hrest ih =>
    obtain ⟨⟨hl, -⟩, hes⟩ := List.forall_mem_cons.mp hes
    have hw := hvalues.walk hl
    have hbound := hrest.extends hu
    refine List.forall_mem_cons.mpr ⟨?_, ih hE (hvalues.bindVariable _ hw) hes hu⟩
    refine hmeet hE (.right hv hrest) hu ?_
    rw [hv]
    exact hE.symm (hE.bindVariable hvalues hw hbound.1 hbound.2)
  | arguments hl hr hlen hrest ih =>
    obtain ⟨⟨hxs, hys⟩, hes⟩ := List.forall_mem_cons.mp hes
    have hall := ih hE hvalues (List.forall_mem_append.mpr
      ⟨fun e he ↦ consistsOf_zip (hl ▸ hvalues.walk hxs) (hr ▸ hvalues.walk hys) he, hes⟩) hu
    obtain ⟨hargs, hrestes⟩ := List.forall_mem_append.mp hall
    refine List.forall_mem_cons.mpr ⟨hmeet hE hrest hu ?_, hrestes⟩
    rw [hl, hr]
    exact hE.app _ hlen hargs

theorem identifies_apply (hR : Term.IsCongruence R) (hsame : ∀ {t w : Term},
      t.consistsOf symbol number = true → t.same w = true → R t w) (hu : u.Acyclic) :
    u.Identifies symbol number fun x y ↦ R (u.apply x) (u.apply y) where
  refl _ := hR.refl _
  symm h := hR.symm h
  trans h h' := hR.trans h h'
  same ht h := hR.bind _ (hsame ht h)
  bound h := by
    rw [apply_of_bound hu h]
    exact hR.refl _
  app g xs ys hlen h := by
    rw [apply_app, apply_app]
    exact hR.fold g (by rw [List.length_map, List.length_map, hlen]) (Term.zip_map_bind h)

end Related

theorem apply_unify (hs : s.Acyclic) (hexact : s.IsExact) {l r : Term} (hl : l.isExact = true)
    (hr : r.isExact = true) (h : (s.unify l r).isConsistent = true) :
    (s.unify l r).apply l = (s.unify l r).apply r :=
  (s.solves_unify l r).related
    (identifies_apply Term.isCongruence_eq Term.eq_of_same (hs.unify l r)) hexact
    (by simp [hl, hr]) h (l, r) (.head _)

theorem agrees_unify (hs : s.Acyclic) {l r : Term} (h : (s.unify l r).isConsistent = true) :
    ((s.unify l r).apply l).Agrees ((s.unify l r).apply r) := by
  have hall (t : Term) : t.consistsOf (fun _ ↦ true) (fun _ ↦ true) = true := by
    induction t using Term.induction with
    | var v => rfl
    | num n => rfl
    | app g xs ih => exact Term.consistsOf_app.mpr ⟨rfl, ih⟩
  exact (s.solves_unify l r).related
    (identifies_apply Term.isCongruence_agrees (fun _ ↦ Term.agrees_of_same) (hs.unify l r))
    (fun _ t _ ↦ hall t) (fun e _ ↦ ⟨hall e.1, hall e.2⟩) h (l, r) (.head _)

end Argumentation.Substitution
