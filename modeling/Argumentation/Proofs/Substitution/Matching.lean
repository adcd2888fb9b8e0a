import Argumentation.Proofs.Substitution.Resemblance
import Argumentation.Proofs.Term.Plain

namespace Argumentation

namespace Term

variable {t u : Term}

theorem turns_of_same (h : t.same u = true) : t.Turns (· = ·) u := by
  have hall (xs ys : List Term) (ih : ∀ x ∈ xs, ∀ y : Term, x.same y = true → x.Turns (· = ·) y)
      (h : sameAll xs ys = true) : List.Forall₂ (Turns (· = ·)) xs ys := by
    induction xs generalizing ys with
    | nil =>
      cases ys with
      | nil => exact .nil
      | cons y ys => cases h
    | cons x xs ihxs =>
      cases ys with
      | nil => cases h
      | cons y ys =>
        rw [sameAll, Bool.and_eq_true] at h
        exact .cons (ih x (.head _) y h.1) (ihxs ys (fun z hz ↦ ih z (.tail _ hz)) h.2)
  induction t using Term.induction generalizing u with
  | var v =>
    cases u with
    | var w => exact .var (eq_of_beq h)
    | _ => cases h
  | num m =>
    cases u with
    | num n => exact .num h
    | _ => cases h
  | app g xs ih =>
    cases u with
    | app c ys =>
      rw [same, Bool.and_eq_true, beq_iff_eq] at h
      obtain ⟨rfl, hargs⟩ := h
      exact .app g (hall xs ys (fun x hx y ↦ ih x hx) hargs)
    | _ => cases h

theorem alike_of_same (h : t.same u = true) : t.Alike Number.Alike u := by
  have halike : (t.instantiate var).Alike Number.Alike (u.instantiate var) :=
    (turns_of_same h).alike (by rintro v _ rfl; exact .var v)
  rwa [instantiate_var, instantiate_var] at halike

theorem isDefinite_of_same (h : t.same u = true) : t.isDefinite = true :=
  Resembles.isDefinite ((turns_of_same h).mono fun _ _ _ ↦ trivial)

theorem Turns.ground {R : Variable → Variable → Prop} (h : t.Turns R u) (hu : u.occurrences = []) :
    t.occurrences = [] := by
  induction t using Term.induction generalizing u with
  | var v =>
    cases h
    cases hu
  | num m => rfl
  | app g xs ih =>
    cases h with
    | app g h =>
      rw [occurrences] at hu ⊢
      induction h with
      | nil => rfl
      | cons hx _ ihs =>
        rw [occurrencesAll, List.append_eq_nil_iff] at hu ⊢
        exact ⟨ih _ (.head _) hx hu.1, ihs (fun x hx ↦ ih x (.tail _ hx)) hu.2⟩

end Term

namespace Substitution

variable {s u : Substitution} {es : List (Term × Term)} {t g : Term}

def Grounded (s : Substitution) : Prop :=
  ∀ v t, s.get? v = some t → t.occurrences = []

def value (s : Substitution) (v : Variable) : Term :=
  (s.get? v).getD (.var v)

theorem Grounded.bindVariable (h : s.Grounded) (v : Variable) (ht : t.occurrences = []) :
    (s.bindVariable v t).Grounded := by
  rcases s.bindVariable_cases v t with ⟨heq, -⟩ | ⟨heq, -, -⟩ | heq
  · rwa [heq]
  · rw [heq]
    intro w x hw
    rw [get?_bound] at hw
    split at hw
    · cases hw
      exact ht
    · exact h w x hw
  · rw [heq]
    exact fun w x hw ↦ h w x (s.extends_ban v w x hw)

theorem Grounded.eq_of_walk (h : s.Grounded) {v : Variable} (hv : s.walk t = .var v) :
    t = .var v := by
  rcases walk_induction (s := s) (motive := fun w ↦ w = t ∨ w.occurrences = []) (.inl rfl)
    fun v w hw _ ↦ .inr (h v w hw) with heq | hground
  · exact heq.symm.trans hv
  · rw [hv] at hground
    cases hground

theorem Grounded.instantiate_walk (h : s.Grounded) (hu : u.Extends s) (t : Term) :
    (s.walk t).instantiate u.value = t.instantiate u.value := by
  refine walk_induction (motive := fun w ↦ w.instantiate u.value = t.instantiate u.value) rfl
    fun v w hw hv ↦ ?_
  rw [Term.instantiate_of_ground (h v w hw), ← hv, Term.instantiate, value, hu v w hw]
  rfl

/-- A term that has no NaN in it and whose instance is alike to another one. -/
def Matches (s : Substitution) (t g : Term) : Prop :=
  t.isDefinite = true ∧ (t.instantiate s.value).Alike Number.Alike g

theorem Matches.app {xs ys : List Term} (h : List.Forall₂ s.Matches xs ys) (c : Symbol) :
    s.Matches (.app c xs) (.app c ys) := by
  constructor
  · refine Term.consistsOf_app.mpr ⟨rfl, ?_⟩
    induction h with
    | nil => simp
    | cons hx _ ih => exact List.forall_mem_cons.mpr ⟨hx.1, ih⟩
  · rw [Term.instantiate, Term.instantiateAll_eq_map]
    refine .app c ?_
    rw [List.forall₂_map_left_iff]
    exact h.imp fun _ _ hxy ↦ hxy.2

theorem Grounded.matches_of_walk (h : s.Grounded) (hu : u.Extends s)
    (hmatches : u.Matches (s.walk t) g) : u.Matches t g := by
  rw [Matches, h.instantiate_walk hu] at hmatches
  refine ⟨?_, hmatches.2⟩
  cases t with
  | var v => rfl
  | num n => exact hmatches.1
  | app c xs => exact hmatches.1

theorem matches_of_same (hg : g.occurrences = []) (h : t.same g = true) : s.Matches t g := by
  refine ⟨Term.isDefinite_of_same h, ?_⟩
  rw [Term.instantiate_of_ground ((Term.turns_of_same h).ground hg)]
  exact Term.alike_of_same h

theorem get?_bindVariable {v : Variable} (hv : s.get? v = none) (hg : g.occurrences = [])
    (h : (s.bindVariable v g).isConsistent = true) : (s.bindVariable v g).get? v = some g := by
  rcases s.bindVariable_cases v g with ⟨heq, hkept⟩ | ⟨heq, -, -⟩ | heq
  · rw [heq] at h
    rcases hkept with hbanned | hself | ⟨w, hw, -⟩
    · rw [isBanned_of_isConsistent h v] at hbanned
      cases hbanned
    · have hground := (Term.turns_of_same hself).symm.ground hg
      cases hground
    · rw [hv] at hw
      cases hw
  · rw [heq, get?_bound, if_pos rfl]
  · rw [heq, not_isConsistent_ban] at h
    cases h

theorem Solves.matches (h : Solves es s u) (hs : s.Acyclic) (hground : s.Grounded)
    (hes : ∀ e ∈ es, e.2.occurrences = []) (hu : u.isConsistent = true) :
    ∀ e ∈ es, u.Matches e.1 e.2 := by
  induction h with
  | nil s => simp
  -- The bindings in the end are consistent, so nothing was skipped and nothing clashed.
  | skip hc hrest _ =>
    rw [(hrest.extends hu).1] at hc
    cases hc
  | clash hrest _ =>
    have hc := (hrest.extends hu).1
    rw [not_isConsistent_clash] at hc
    cases hc
  | @same s u l r es hlr hrest ih =>
    obtain ⟨hr, hes⟩ := List.forall_mem_cons.mp hes
    rw [walk_of_ground s hr] at hlr
    refine List.forall_mem_cons.mpr ⟨?_, ih hs hground hes hu⟩
    exact hground.matches_of_walk (hrest.extends hu).2 (matches_of_same hr hlr)
  | @left s u l r es v hv hrest ih =>
    obtain ⟨hr, hes⟩ := List.forall_mem_cons.mp hes
    rw [walk_of_ground s hr] at hrest ih
    obtain ⟨hconsistent, hext⟩ := hrest.extends hu
    have hvalue : u.value v = r := by
      rw [value, hext v r (get?_bindVariable (hs.get?_of_walk hv) hr hconsistent)]
      rfl
    refine List.forall_mem_cons.mpr
      ⟨?_, ih (hs.bindVariable v r) (hground.bindVariable v hr) hes hu⟩
    rw [hground.eq_of_walk hv]
    refine ⟨rfl, ?_⟩
    rw [Term.instantiate, hvalue]
    exact .refl Number.alike_equivalence r
  | @right s u l r es v hv hrest _ =>
    obtain ⟨hr, -⟩ := List.forall_mem_cons.mp hes
    rw [walk_of_ground s hr] at hv
    subst hv
    cases hr
  | @arguments s u l r es c xs ys hl hr hlen hrest ih =>
    obtain ⟨hg, hes'⟩ := List.forall_mem_cons.mp hes
    rw [walk_of_ground s hg] at hr
    subst hr
    have hall := ih hs hground (fun e he ↦ (List.mem_append.mp he).elim
      (fun he ↦ Term.occurrences_of_argument hg (List.of_mem_zip he).2) (hes' e)) hu
    refine List.forall_mem_cons.mpr ⟨?_, fun e he ↦ hall e (List.mem_append_right _ he)⟩
    refine hground.matches_of_walk (hrest.extends hu).2 ?_
    rw [hl]
    exact .app (List.forall₂_iff_zip.mpr ⟨hlen, fun hxy ↦ hall _ (List.mem_append_left _ hxy)⟩) c

end Substitution

namespace Term

variable {t u g : Term}

theorem matches_of_unifies (hg : g.occurrences = []) (h : t.unifies g = true) :
    (Substitution.empty.unify t g).Matches t g := by
  refine (Substitution.empty.solves_unify t g).matches Substitution.acyclic_empty
    (fun v x hx ↦ by cases hx) (fun e he ↦ ?_) h (t, g) (.head _)
  rw [List.mem_singleton.mp he]
  exact hg

/-- Terms over different variables that unify with one ground term unify with each other. -/
theorem overlaps_of_unifies_ground (hapart : ∀ v ∈ t.occurrences, v ∉ u.occurrences)
    (hg : g.occurrences = []) (ht : t.unifies g = true) (hu : u.unifies g = true) :
    t.Overlaps u := by
  obtain ⟨htdefinite, htg⟩ := matches_of_unifies hg ht
  obtain ⟨hudefinite, hug⟩ := matches_of_unifies hg hu
  let f (v : Variable) : Term := if v ∈ t.occurrences then (Substitution.empty.unify t g).value v
    else (Substitution.empty.unify u g).value v
  have htf : (t.instantiate f).Alike Number.Alike g := by
    have hinstance : t.instantiate f = t.instantiate (Substitution.empty.unify t g).value :=
      instantiate_congr fun v hv ↦ if_pos hv
    rwa [hinstance]
  have huf : (u.instantiate f).Alike Number.Alike g := by
    have hinstance : u.instantiate f = u.instantiate (Substitution.empty.unify u g).value :=
      instantiate_congr fun v hv ↦ if_neg fun hv' ↦ hapart v hv' hv
    rwa [hinstance]
  have halike := htf.trans Number.alike_equivalence (huf.symm Number.alike_equivalence)
  exact ⟨unifies_of_alike htdefinite hudefinite halike,
    unifies_of_alike hudefinite htdefinite (halike.symm Number.alike_equivalence)⟩

end Term

end Argumentation
