import Argumentation.Proofs.RelatedLists
import Argumentation.Proofs.Term.Composition
import Argumentation.Proofs.Term.Plain
import Argumentation.Proofs.Term.Renumbering
import Argumentation.Proofs.Term.Variant
import Mathlib.Data.Set.Function

namespace Argumentation

namespace Term

variable {R : Variable → Variable → Prop} {f : Variable → Variable} {t u : Term}
  {xs ys : List Term}

theorem Turns.rename_eq (hf : ∀ v w, R v w → f v = w) (ht : t.isExact = true) (h : t.Turns R u) :
    t.rename f = u := by
  induction t using Term.induction generalizing u with
  | var v =>
    cases h with
    | var h => rw [rename, hf _ _ h]
  | num m =>
    cases h with
    | num h =>
      cases m with
      | int a => rw [rename, int_same_iff.mp h]
      | float x => cases ht
  | app g xs ih =>
    cases h with
    | app g h =>
      have hxs : List.Forall₂ (fun x y ↦ x.rename f = y) xs _ :=
        forall₂_imp h fun x hx _ hxy ↦ ih x hx ((consistsOf_app.mp ht).2 x hx) hxy
      rw [rename, renameAll_eq_map, map_eq_of_forall₂ hxs]

theorem turns_rename (ht : t.isExact = true) (hR : ∀ v ∈ t.occurrences, R v (f v)) :
    t.Turns R (t.rename f) := by
  induction t using Term.induction with
  | var v => exact .var (hR v (.head _))
  | num m =>
    cases m with
    | int a => exact .num (int_same_iff.mpr rfl)
    | float x => cases ht
  | app g xs ih =>
    rw [rename, renameAll_eq_map]
    refine .app g (List.forall₂_map_right_iff.mpr (List.forall₂_same.mpr fun x hx ↦ ?_))
    have hvars (v : Variable) (hv : v ∈ x.occurrences) : R v (f v) :=
      hR v (mem_occurrencesAll.mpr ⟨x, hx, hv⟩)
    exact ih x hx ((consistsOf_app.mp ht).2 x hx) hvars

theorem exists_related_of_turns
    (hxs : ∀ x ∈ xs, ∀ {y v}, x.Turns R y → v ∈ x.occurrences → ∃ w ∈ y.occurrences, R v w)
    (h : List.Forall₂ (Turns R) xs ys) {v : Variable} (hv : v ∈ occurrencesAll xs) :
    ∃ w ∈ occurrencesAll ys, R v w := by
  obtain ⟨x, hx, hv⟩ := mem_occurrencesAll.mp hv
  obtain ⟨y, hy, hxy⟩ := exists_of_forall₂ h x hx
  obtain ⟨w, hw, hvw⟩ := hxs x hx hxy hv
  exact ⟨w, mem_occurrencesAll.mpr ⟨y, hy, hw⟩, hvw⟩

theorem Turns.exists_related (h : t.Turns R u) {v : Variable} (hv : v ∈ t.occurrences) :
    ∃ w ∈ u.occurrences, R v w := by
  induction t using Term.induction generalizing u v with
  | var v' =>
    cases h with
    | var h =>
      rw [List.mem_singleton.mp hv]
      exact ⟨_, .head _, h⟩
  | num m => cases hv
  | app g xs ih =>
    cases h with
    | app g h => exact exists_related_of_turns (fun x hx _ _ hxy hv ↦ ih x hx hxy hv) h hv

theorem exists_function (hR : Relator.RightUnique R) :
    ∃ f : Variable → Variable, ∀ v w, R v w → f v = w := by
  classical
  refine ⟨fun v ↦ if h : ∃ w, R v w then h.choose else v, fun v w hvw ↦ ?_⟩
  have hex : ∃ w, R v w := ⟨w, hvw⟩
  exact (dif_pos hex).trans (hR hex.choose_spec hvw)

/-- Lists of terms are paired exactly if one renaming, injective on the variables of the first,
makes them the second, term by term. -/
theorem isSome_pairAll_iff_renaming (hxs : ∀ x ∈ xs, x.isExact = true) :
    (pairAll xs ys []).isSome = true ↔ ∃ f : Variable → Variable,
      Set.InjOn f {v | v ∈ occurrencesAll xs} ∧
        Set.MapsTo f {v | v ∈ occurrencesAll xs} {v | v ∈ occurrencesAll ys} ∧
        xs.map (rename f) = ys := by
  rw [isSome_pairAll]
  constructor
  · rintro ⟨R, ⟨hleft, hright⟩, hturns⟩
    obtain ⟨f, hf⟩ := exists_function hright
    have himage (v : Variable) (hv : v ∈ occurrencesAll xs) :
        f v ∈ occurrencesAll ys ∧ R v (f v) := by
      obtain ⟨w, hw, hvw⟩ := exists_related_of_turns
        (fun _ _ _ _ hxy hv ↦ hxy.exists_related hv) hturns hv
      rw [hf v w hvw]
      exact ⟨hw, hvw⟩
    refine ⟨f, fun v hv w hw hvw ↦ ?_, fun v hv ↦ (himage v hv).1, ?_⟩
    · exact hleft (himage v hv).2 (hvw ▸ (himage w hw).2)
    · exact map_eq_of_forall₂ (forall₂_imp hturns fun x hx _ hxy ↦ hxy.rename_eq hf (hxs x hx))
  · rintro ⟨f, hinj, -, rfl⟩
    refine ⟨fun v w ↦ v ∈ occurrencesAll xs ∧ f v = w, ⟨?_, ?_⟩, ?_⟩
    · exact fun v w y hv hw ↦ hinj hv.1 hw.1 (hv.2.trans hw.2.symm)
    · exact fun v w y hw hy ↦ hw.2.symm.trans hy.2
    · refine List.forall₂_map_right_iff.mpr (List.forall₂_same.mpr fun x hx ↦ ?_)
      exact turns_rename (hxs x hx) fun v hv ↦ ⟨mem_occurrencesAll.mpr ⟨x, hx, hv⟩, rfl⟩

theorem mem_vars {v : Variable} : v ∈ t.vars ↔ v ∈ t.occurrences :=
  List.mem_eraseDups

theorem isVariant_iff_renaming (ht : t.isExact = true) : t.isVariant u = true ↔
    ∃ f : Variable → Variable, Set.InjOn f {v | v ∈ t.vars} ∧
      Set.MapsTo f {v | v ∈ t.vars} {v | v ∈ u.vars} ∧ t.rename f = u := by
  rw [isVariant_eq_pairAll, isSome_pairAll_iff_renaming (List.forall_mem_singleton.mpr ht)]
  simp only [occurrencesAll, List.append_nil, mem_vars, List.map_cons, List.map_nil,
    List.cons.injEq, and_true]

theorem isVariant_refl (ht : t.isExact = true) : t.isVariant t = true :=
  (isVariant_iff_renaming ht).mpr
    ⟨id, Set.injOn_id _, Set.mapsTo_id _, t.rename_id⟩

end Term

namespace Rule

variable {r s : Rule}

def IsExact (r : Rule) : Prop :=
  r.consequent.isExact = true ∧ ∀ e ∈ r.antecedent, e.isExact = true

theorem isVariant_iff_renaming (hr : r.IsExact) : r.isVariant s = true ↔
    ∃ f : Variable → Variable, Set.InjOn f {v | v ∈ r.vars} ∧
      Set.MapsTo f {v | v ∈ r.vars} {v | v ∈ s.vars} ∧
      r.consequent.rename f = s.consequent ∧ r.antecedent.map (Term.rename f) = s.antecedent := by
  rw [isVariant, Term.isSome_pairAll_iff_renaming (List.forall_mem_cons.mpr hr)]
  simp only [Term.occurrencesAll, vars, List.mem_eraseDups, List.map_cons, List.cons.injEq]

theorem isVariant_refl (hr : r.IsExact) : r.isVariant r = true :=
  (isVariant_iff_renaming hr).mpr
    ⟨fun v ↦ v, Set.injOn_id _, Set.mapsTo_id _, r.consequent.rename_id,
      (List.map_congr_left fun e _ ↦ e.rename_id).trans (List.map_id' _)⟩

end Rule

/-- Variance decides renaming, for terms and for rules, and is an equivalence relation on each. -/
theorem variance_iff_renaming :
    (∀ t u : Term, t.isExact = true → u.isExact = true → (t.isVariant u = true ↔
      ∃ f : Variable → Variable, Set.InjOn f {v | v ∈ t.vars} ∧
        Set.MapsTo f {v | v ∈ t.vars} {v | v ∈ u.vars} ∧ t.rename f = u)) ∧
    (∀ r s : Rule, r.IsExact → s.IsExact → (r.isVariant s = true ↔
      ∃ f : Variable → Variable, Set.InjOn f {v | v ∈ r.vars} ∧
        Set.MapsTo f {v | v ∈ r.vars} {v | v ∈ s.vars} ∧
        r.consequent.rename f = s.consequent ∧
        r.antecedent.map (Term.rename f) = s.antecedent)) ∧
    Equivalence (fun t u : {t : Term // t.isExact = true} ↦ t.1.isVariant u.1 = true) ∧
    Equivalence (fun r s : {r : Rule // r.IsExact} ↦ r.1.isVariant s.1 = true) := by
  refine ⟨fun t u ht _ ↦ Term.isVariant_iff_renaming ht,
    fun r s hr _ ↦ Rule.isVariant_iff_renaming hr, ?_, ?_⟩
  · exact ⟨fun t ↦ Term.isVariant_refl t.2, Term.isVariant_symm, Term.isVariant_trans⟩
  · exact ⟨fun r ↦ Rule.isVariant_refl r.2, Rule.isVariant_symm, Rule.isVariant_trans⟩

def Rule.twoSteps (i j k : ℕ) : Rule :=
  let edge (m n : ℕ) : Term := .app (.name "edge") [.var ⟨"X", m⟩, .num (.int 3), .var ⟨"X", n⟩]
  plain (.app (.name "far") [.var ⟨"X", i⟩, .var ⟨"X", k⟩]) [edge i j, edge j k] .one

/-- The variables of a rule may be exchanged in a circle, but not identified. -/
theorem twoSteps_rotated :
    let r := Rule.twoSteps 1 2 3
    let s := Rule.twoSteps 2 3 1
    let collapsed := Rule.twoSteps 1 2 1
    r.IsExact ∧ s.IsExact ∧ collapsed.IsExact ∧
      (∃ f : Variable → Variable, Set.InjOn f {v | v ∈ r.vars} ∧
        Set.MapsTo f {v | v ∈ r.vars} {v | v ∈ s.vars} ∧
        r.consequent.rename f = s.consequent ∧ r.antecedent.map (Term.rename f) = s.antecedent) ∧
      (¬ ∃ f : Variable → Variable, Set.InjOn f {v | v ∈ r.vars} ∧
        Set.MapsTo f {v | v ∈ r.vars} {v | v ∈ collapsed.vars} ∧
        r.consequent.rename f = collapsed.consequent ∧
        r.antecedent.map (Term.rename f) = collapsed.antecedent) ∧
      ∃ f : Variable → Variable, Set.InjOn f {v | v ∈ r.consequent.vars} ∧
        Set.MapsTo f {v | v ∈ r.consequent.vars} {v | v ∈ s.consequent.vars} ∧
        r.consequent.rename f = s.consequent := by
  intro r s collapsed
  have hexact (i j k : ℕ) : (Rule.twoSteps i j k).IsExact :=
    ⟨rfl, List.forall_mem_cons.mpr ⟨rfl, List.forall_mem_singleton.mpr rfl⟩⟩
  refine ⟨hexact 1 2 3, hexact 2 3 1, hexact 1 2 1, ?_, ?_, ?_⟩
  · exact (variance_iff_renaming.2.1 r s (hexact 1 2 3) (hexact 2 3 1)).mp (by decide +kernel)
  · exact mt (variance_iff_renaming.2.1 r collapsed (hexact 1 2 3) (hexact 1 2 1)).mpr
      (by decide +kernel)
  · exact (variance_iff_renaming.1 r.consequent s.consequent rfl rfl).mp (by decide +kernel)

end Argumentation
