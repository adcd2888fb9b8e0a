import Argumentation.Argument.Construction
import Argumentation.Proofs.Argument.Form
import Argumentation.Proofs.Rule.Basic
import Argumentation.Proofs.Substitution.Renumbering
import Mathlib.Order.Interval.Set.Basic

namespace Argumentation

open Equiv (Perm)

abbrev Below {β : Type} [SMul (Perm ℕ) β] (b : ℕ) (x : β) : Prop :=
  MulAction.Supports (Perm ℕ) (Set.Iio b) x

namespace Below

variable {β γ : Type} [MulAction (Perm ℕ) β] [MulAction (Perm ℕ) γ] {b c : ℕ} {x : β}

theorem iff_forall : Below b x ↔ ∀ π : Perm ℕ, (∀ i < b, π i = i) → π • x = x :=
  Iff.rfl

theorem mono (h : Below b x) (hbc : b ≤ c) : Below c x :=
  MulAction.Supports.mono (Set.Iio_subset_Iio hbc) h

theorem smul_eq (h : Below b x) {π ρ : Perm ℕ} (hπ : ∀ i < b, π i = ρ i) : π • x = ρ • x := by
  have hkeep : (ρ⁻¹ * π) • x = x := iff_forall.mp h _ fun i hi ↦ by
    rw [Perm.mul_apply, hπ i hi]
    exact inv_smul_smul ρ i
  calc π • x = ρ • (ρ⁻¹ * π) • x := by rw [← mul_smul, mul_inv_cancel_left]
    _ = ρ • x := by rw [hkeep]

/-- What is computed without regard to numbers depends on no more variables. -/
theorem map (h : Below b x) {f : β → γ} (hf : ∀ π : Perm ℕ, π • f x = f (π • x)) :
    Below b (f x) := by
  rw [iff_forall] at h ⊢
  exact fun π hπ ↦ by rw [hf, h π hπ]

end Below

/-- Two things have the same view but for the numbers of variables from a bound on, which are
matched one to one. -/
def Alike {β : Type} [MulAction (Perm ℕ) β] (view : β → β) (b : ℕ) (x y : β) : Prop :=
  ∃ π : Perm ℕ, (∀ i < b, π i = i) ∧ view x = π • view y

namespace Alike

variable {β γ : Type} [MulAction (Perm ℕ) β] {view : β → β} {b : ℕ} {x y z : β}

theorem of_common (hx : Alike view b x z) (hy : Alike view b y z) : Alike view b x y := by
  obtain ⟨π, hπ, hx⟩ := hx
  obtain ⟨ρ, hρ, hy⟩ := hy
  refine ⟨π * ρ⁻¹, fun i hi ↦ ?_, by rw [hx, hy, mul_smul, inv_smul_smul]⟩
  rw [Perm.mul_apply, Perm.inv_eq_iff_eq.mpr (hρ i hi).symm, hπ i hi]

theorem eq_of_invariant (h : Alike view b x y) {f : β → γ} (hview : ∀ x, f (view x) = f x)
    (hsmul : ∀ (π : Perm ℕ) x, f (π • x) = f x) : f x = f y := by
  obtain ⟨π, -, h⟩ := h
  rw [← hview x, h, hsmul, hview]

end Alike

theorem map_smul_eq_self_iff {β : Type} [SMul (Perm ℕ) β] {π : Perm ℕ} {xs : List β} :
    xs.map (π • ·) = xs ↔ ∀ x ∈ xs, π • x = x := by
  conv => lhs; rhs; rw [← List.map_id' xs]
  exact List.map_inj_left

theorem exists_extension {π : Perm ℕ} {b n : ℕ} (h : ∀ i < b, π i < n) (k : ℕ) :
    ∃ ρ : Perm ℕ, (∀ i < b, ρ i = π i) ∧ ∀ i < k, ρ (b + i) = n + i := by
  induction k with
  | zero => exact ⟨π, fun _ _ ↦ rfl, by simp⟩
  | succ k ih =>
    obtain ⟨ρ, hold, hnew⟩ := ih
    have hne {i : ℕ} (hi : i < b + k) : ρ i ≠ ρ (b + k) := fun he ↦
      Nat.ne_of_lt hi (ρ.injective he)
    refine ⟨Equiv.swap (ρ (b + k)) (n + k) * ρ, fun i hi ↦ ?_, fun i hi ↦ ?_⟩
    · have hlt := h i hi
      rw [Perm.mul_apply, Equiv.swap_apply_of_ne_of_ne (hne (by omega)) (by rw [hold i hi]; omega),
        hold i hi]
    · rw [Perm.mul_apply]
      rcases Nat.lt_succ_iff_lt_or_eq.mp hi with hi | rfl
      · rw [Equiv.swap_apply_of_ne_of_ne (hne (by omega)) (by rw [hnew i hi]; omega), hnew i hi]
      · rw [Equiv.swap_apply_left]

theorem Term.below_of_occurrences {t : Term} {b : ℕ} (h : ∀ v ∈ t.occurrences, v.id < b) :
    Below b t := by
  refine Below.iff_forall.mpr fun π hπ ↦ ?_
  refine (rename_congr fun v hv ↦ ?_).trans (rename_id t)
  show π • v = v
  rw [Variable.smul_def, hπ v.id (h v hv)]

theorem Variable.lt_of_fixed {b : ℕ} {v : Variable}
    (h : ∀ π : Perm ℕ, (∀ i < b, π i = i) → π • v = v) : v.id < b := by
  by_contra hge
  -- Whatever keeps the numbers below the bound would have to keep this one too.
  have hswap := h (Equiv.swap v.id (v.id + 1)) fun i hi ↦
    Equiv.swap_apply_of_ne_of_ne (by omega) (by omega)
  rw [Variable.smul_def, Equiv.swap_apply_left] at hswap
  exact absurd (congrArg Variable.id hswap) (Nat.succ_ne_self _)

theorem Term.below_iff {b : ℕ} {t : Term} : Below b t ↔ ∀ v ∈ t.occurrences, v.id < b := by
  refine ⟨fun h v hv ↦ Variable.lt_of_fixed fun π hπ ↦ ?_, below_of_occurrences⟩
  have hsame := congrArg Term.occurrences (Below.iff_forall.mp h π hπ)
  rw [occurrences_smul] at hsame
  exact map_smul_eq_self_iff.mp hsame v hv

theorem Term.below_of_ground {t : Term} (h : t.isGround = true) (b : ℕ) : Below b t := by
  rw [isGround, List.isEmpty_iff] at h
  exact below_of_occurrences fun v hv ↦ by
    rw [h] at hv
    cases hv

theorem Substitution.below_empty (b : ℕ) : Below b Substitution.empty :=
  Below.iff_forall.mpr fun _ _ ↦ rfl

theorem Substitution.below_of_bindings {s : Substitution} {b : ℕ}
    (hbindings : ∀ e ∈ s.bindings, e.1.id < b ∧ ∀ v ∈ e.2.occurrences, v.id < b)
    (hbanned : ∀ v ∈ s.banned, v.id < b) : Below b s := by
  refine Below.iff_forall.mpr fun π hπ ↦ ?_
  have hvar (v : Variable) (hv : v.id < b) : π • v = v := by
    rw [Variable.smul_def, hπ v.id hv]
  have hb : s.bindings.map (π • ·) = s.bindings := map_smul_eq_self_iff.mpr fun e he ↦ by
    obtain ⟨hv, ht⟩ := hbindings e he
    exact Prod.ext (hvar e.1 hv) (Below.iff_forall.mp (Term.below_of_occurrences ht) π hπ)
  have hv : s.banned.map (π • ·) = s.banned := map_smul_eq_self_iff.mpr fun v hv ↦
    hvar v (hbanned v hv)
  show Substitution.mk (s.bindings.map (π • ·)) (s.banned.map (π • ·)) s.clashed = s
  rw [hb, hv]

/-- The variables that are bound, occur in values or are banned. -/
def Substitution.occurrences (s : Substitution) : List Variable :=
  s.bindings.flatMap (fun (v, t) ↦ v :: t.occurrences) ++ s.banned

theorem Substitution.below_iff {b : ℕ} {s : Substitution} :
    Below b s ↔ ∀ v ∈ s.occurrences, v.id < b := by
  simp only [occurrences, List.mem_append, List.mem_flatMap, List.mem_cons]
  constructor
  · rintro h v (⟨e, he, hv⟩ | hv)
    · have hfixed (π : Perm ℕ) (hπ : ∀ i < b, π i = i) : π • e = e :=
        map_smul_eq_self_iff.mp (congrArg Substitution.bindings (Below.iff_forall.mp h π hπ)) e he
      rcases hv with rfl | hv
      · exact Variable.lt_of_fixed fun π hπ ↦ congrArg Prod.fst (hfixed π hπ)
      · have hvalue : Below b e.2 := Below.iff_forall.mpr fun π hπ ↦
          congrArg Prod.snd (hfixed π hπ)
        exact Term.below_iff.mp hvalue v hv
    · exact Variable.lt_of_fixed fun π hπ ↦
        map_smul_eq_self_iff.mp (congrArg Substitution.banned (Below.iff_forall.mp h π hπ)) v hv
  · intro h
    exact below_of_bindings
      (fun e he ↦ ⟨h e.1 (.inl ⟨e, he, .inl rfl⟩), fun v hv ↦ h v (.inl ⟨e, he, .inr hv⟩)⟩)
      fun v hv ↦ h v (.inr hv)

theorem Substitution.below_apply {s : Substitution} {t : Term} {b : ℕ} (hs : Below b s)
    (ht : Below b t) : Below b (s.apply t) :=
  Below.iff_forall.mpr fun π hπ ↦ by
    rw [smul_apply, Below.iff_forall.mp hs π hπ, Below.iff_forall.mp ht π hπ]

theorem Substitution.below_unify {s : Substitution} {l r : Term} {b : ℕ} (hs : Below b s)
    (hl : Below b l) (hr : Below b r) : Below b (s.unify l r) :=
  Below.iff_forall.mpr fun π hπ ↦ by
    rw [smul_unify, Below.iff_forall.mp hs π hπ, Below.iff_forall.mp hl π hπ,
      Below.iff_forall.mp hr π hπ]

namespace Rule

instance : MulAction (Perm ℕ) Rule where
  smul π r := r.rename (π • ·)
  one_smul r := by
    have hname : r.name.map ((1 : Perm ℕ) • ·) = r.name := by
      simp only [one_smul, Option.map_id']
    have hantecedent : Term.renameAll ((1 : Perm ℕ) • ·) r.antecedent = r.antecedent :=
      (Term.renameAll_eq_map _ _).trans
        (map_smul_eq_self_iff.mpr fun e _ ↦ one_smul (Perm ℕ) e)
    show Rule.mk r.id (r.name.map ((1 : Perm ℕ) • ·)) ((1 : Perm ℕ) • r.consequent)
      (Term.renameAll ((1 : Perm ℕ) • ·) r.antecedent) r.degree r.origin r.autoNamed r.caption
      r.description = r
    rw [one_smul, hname, hantecedent]
  mul_smul π ρ r := by
    show r.rename ((π * ρ) • ·) = (r.rename (ρ • ·)).rename (π • ·)
    simp only [rename, Term.renameAll_eq_map, List.map_map, Option.map_map, Term.rename_rename,
      Function.comp_def, mul_smul]

variable (π : Perm ℕ) (r : Rule)

theorem smul_antecedent : (π • r).antecedent = r.antecedent.map (π • ·) :=
  Term.renameAll_eq_map _ _

@[simp]
theorem smul_evaluated (goal : Term) : π • Rule.evaluated goal = .evaluated (π • goal) :=
  rfl

theorem rename_congr {f g : Variable → Variable} (h : ∀ v ∈ r.allVars, f v = g v) :
    r.rename f = r.rename g := by
  simp only [mem_allVars] at h
  have hc : r.consequent.rename f = r.consequent.rename g :=
    Term.rename_congr fun v hv ↦ h v (.inl hv)
  have ha : r.antecedent.map (Term.rename f) = r.antecedent.map (Term.rename g) :=
    List.map_congr_left fun e he ↦ Term.rename_congr fun v hv ↦ h v (.inr (.inl ⟨e, he, hv⟩))
  have hn : r.name.map (Term.rename f) = r.name.map (Term.rename g) :=
    Option.map_congr fun e he ↦ Term.rename_congr fun v hv ↦ h v (.inr (.inr ⟨e, he, hv⟩))
  rw [rename, rename, Term.renameAll_eq_map, Term.renameAll_eq_map, hc, ha, hn]

theorem smul_renameApart {b n : ℕ} (h : ∀ i < r.allVars.length, π (b + i) = n + i) :
    π • r.renameApart b = r.renameApart n := by
  have hcomp (f g : Variable → Variable) : (r.rename f).rename g = r.rename (g ∘ f) := by
    simp only [rename, Term.renameAll_eq_map, List.map_map, Option.map_map, Term.rename_rename,
      Function.comp_def]
  refine (hcomp _ _).trans (r.rename_congr fun v hv ↦ ?_)
  rw [Function.comp_apply, Variable.smul_def, h _ (List.idxOf_lt_length_of_mem hv)]

theorem below_renameApart (b : ℕ) : Below (b + r.allVars.length) (r.renameApart b) :=
  Below.iff_forall.mpr fun π hπ ↦
    r.smul_renameApart π fun i hi ↦ hπ (b + i) (Nat.add_lt_add_left hi b)

/-- Instances made in two places are renumberings of each other that agree on the numbers so far. -/
theorem exists_smul_renameApart {π : Perm ℕ} {b n : ℕ} (h : ∀ i < b, π i < n) :
    ∃ ρ : Perm ℕ, (∀ i < b, ρ i = π i) ∧
      (∀ i < b + r.allVars.length, ρ i < n + r.allVars.length) ∧
      ρ • r.renameApart b = r.renameApart n := by
  obtain ⟨ρ, hρ, hnew⟩ := exists_extension h r.allVars.length
  refine ⟨ρ, hρ, fun i hi ↦ ?_, r.smul_renameApart ρ hnew⟩
  rcases Nat.lt_or_ge i b with hib | hib
  · have := h i hib
    rw [hρ i hib]
    omega
  · obtain ⟨j, rfl⟩ := Nat.exists_eq_add_of_le hib
    rw [hnew j (by omega)]
    omega

variable {r}

theorem below_consequent {b : ℕ} (h : Below b r) : Below b r.consequent :=
  h.map fun _ ↦ rfl

theorem below_antecedent {b : ℕ} (h : Below b r) : ∀ e ∈ r.antecedent, Below b e := by
  intro e he
  refine Below.iff_forall.mpr fun π hπ ↦ ?_
  have hantecedent := congrArg Rule.antecedent (Below.iff_forall.mp h π hπ)
  rw [smul_antecedent] at hantecedent
  exact map_smul_eq_self_iff.mp hantecedent e he

end Rule

namespace Argument

theorem sizeOf_lt_of_mem_subs {a b : Argument} (h : b ∈ a.subs) : sizeOf b < sizeOf a := by
  cases a with
  | mk id rule s subs strength depth =>
    have hlt : sizeOf b < sizeOf subs := List.sizeOf_lt_of_mem h
    rw [Argument.mk.sizeOf_spec]
    omega

theorem induction {motive : Argument → Prop} (step : ∀ a, (∀ b ∈ a.subs, motive b) → motive a)
    (a : Argument) : motive a :=
  step a fun b _ ↦ induction step b
termination_by sizeOf a
decreasing_by exact sizeOf_lt_of_mem_subs ‹_›

mutual

def renumber (π : Perm ℕ) : Argument → Argument
  | ⟨id, rule, substitution, subs, strength, depth⟩ =>
    ⟨id, π • rule, π • substitution, renumberAll π subs, strength, depth⟩

def renumberAll (π : Perm ℕ) : List Argument → List Argument
  | [] => []
  | a :: as => renumber π a :: renumberAll π as

end

theorem renumberAll_eq_map (π : Perm ℕ) (as : List Argument) :
    renumberAll π as = as.map (renumber π) := by
  induction as with
  | nil => rfl
  | cons a as ih => rw [renumberAll, ih, List.map_cons]

theorem renumber_mk (π : Perm ℕ) (id : ArgumentId) (r : Rule) (s : Substitution)
    (subs : List Argument) (strength : Degree) (depth : ℕ) :
    renumber π ⟨id, r, s, subs, strength, depth⟩ =
      ⟨id, π • r, π • s, subs.map (renumber π), strength, depth⟩ := by
  rw [renumber, renumberAll_eq_map]

instance : MulAction (Perm ℕ) Argument where
  smul := renumber
  one_smul a := by
    show renumber 1 a = a
    induction a using Argument.induction with
    | step a ih =>
      obtain ⟨id, r, s, subs, strength, depth⟩ := a
      rw [renumber_mk, one_smul, one_smul, List.map_congr_left ih, List.map_id']
  mul_smul π ρ a := by
    show renumber (π * ρ) a = renumber π (renumber ρ a)
    induction a using Argument.induction with
    | step a ih =>
      obtain ⟨id, r, s, subs, strength, depth⟩ := a
      rw [renumber_mk, renumber_mk, renumber_mk, mul_smul, mul_smul, List.map_congr_left ih,
        List.map_map]
      rfl

variable (π : Perm ℕ)

theorem smul_mk (id : ArgumentId) (r : Rule) (s : Substitution) (subs : List Argument)
    (strength : Degree) (depth : ℕ) :
    π • (⟨id, r, s, subs, strength, depth⟩ : Argument) =
      ⟨id, π • r, π • s, subs.map (π • ·), strength, depth⟩ :=
  renumber_mk π id r s subs strength depth

@[simp]
theorem smul_strength (a : Argument) : (π • a).strength = a.strength := by
  cases a
  rfl

@[simp]
theorem smul_depth (a : Argument) : (π • a).depth = a.depth := by
  cases a
  rfl

@[simp]
theorem smul_rule (a : Argument) : (π • a).rule = π • a.rule := by
  cases a
  rfl

@[simp]
theorem smul_claim (a : Argument) : (π • a).claim = π • a.claim := by
  obtain ⟨id, r, s, subs, strength, depth⟩ := a
  rw [smul_mk]
  exact (Substitution.smul_apply π s r.consequent).symm

@[simp]
theorem smul_substitution (a : Argument) : (π • a).substitution = π • a.substitution := by
  cases a
  rfl

@[simp]
theorem form_mk (id : ArgumentId) (r : Rule) (s : Substitution) (subs : List Argument)
    (strength : Degree) (depth : ℕ) :
    form ⟨id, r, s, subs, strength, depth⟩ = ⟨0, r, s, subs.map form, strength, depth⟩ := by
  rw [form, formAll_eq_map]

theorem form_form (a : Argument) : a.form.form = a.form := by
  induction a using Argument.induction with
  | step a ih =>
    obtain ⟨id, r, s, subs, strength, depth⟩ := a
    have hsubs : (subs.map form).map form = subs.map form := by
      rw [List.map_map]
      exact List.map_congr_left ih
    rw [form_mk, form_mk, hsubs]

theorem form_smul (a : Argument) : (π • a).form = π • a.form := by
  induction a using Argument.induction with
  | step a ih =>
    obtain ⟨id, r, s, subs, strength, depth⟩ := a
    have hsubs : (subs.map (π • ·)).map form = (subs.map form).map (π • ·) := by
      rw [List.map_map, List.map_map]
      exact List.map_congr_left ih
    rw [smul_mk, form_mk, form_mk, smul_mk, hsubs]

end Argument

namespace ArgumentList

instance : MulAction (Perm ℕ) ArgumentList where
  smul π l := ⟨l.arguments.map (π • ·), π • l.substitution⟩
  one_smul l := by
    show ArgumentList.mk (l.arguments.map (1 • ·)) (1 • l.substitution) = l
    simp only [one_smul, List.map_id']
  mul_smul π ρ l := by
    show ArgumentList.mk (l.arguments.map ((π * ρ) • ·)) ((π * ρ) • l.substitution) =
      ArgumentList.mk ((l.arguments.map (ρ • ·)).map (π • ·)) (π • ρ • l.substitution)
    simp only [mul_smul, List.map_map, Function.comp_def]

def form (l : ArgumentList) : ArgumentList :=
  ⟨l.arguments.map Argument.form, l.substitution⟩

theorem form_form (l : ArgumentList) : l.form.form = l.form := by
  simp only [form, List.map_map, Function.comp_def, Argument.form_form]

theorem form_smul (π : Perm ℕ) (l : ArgumentList) : (π • l).form = π • l.form := by
  show ArgumentList.mk ((l.arguments.map (π • ·)).map Argument.form) (π • l.substitution) =
    ArgumentList.mk ((l.arguments.map Argument.form).map (π • ·)) (π • l.substitution)
  simp only [List.map_map, Function.comp_def, Argument.form_smul]

end ArgumentList

namespace Position

instance : MulAction (Perm ℕ) Position where
  smul π p := ⟨p.threshold, p.depth, p.ancestors.map (π • ·)⟩
  one_smul p := by
    show Position.mk p.threshold p.depth (p.ancestors.map (1 • ·)) = p
    simp only [one_smul, List.map_id']
  mul_smul π ρ p := by
    show Position.mk p.threshold p.depth (p.ancestors.map ((π * ρ) • ·)) =
      Position.mk p.threshold p.depth ((p.ancestors.map (ρ • ·)).map (π • ·))
    simp only [mul_smul, List.map_map, Function.comp_def]

@[simp]
theorem smul_threshold (π : Perm ℕ) (p : Position) : (π • p).threshold = p.threshold :=
  rfl

theorem repeats_smul (π : Perm ℕ) (p : Position) (goal : Term) :
    (π • p).repeats (π • goal) = p.repeats goal := by
  show (p.ancestors.map (π • ·)).any (fun g ↦ g.isVariant (π • goal)) = p.repeats goal
  simp only [List.any_map, Function.comp_def, Term.isVariant_smul]
  rfl

theorem smul_below (π : Perm ℕ) (p : Position) (goal : Term) (m : Threshold) :
    π • p.below goal m = (π • p).below (π • goal) m :=
  rfl

theorem below_below {b : ℕ} {p : Position} (hp : Below b p) {goal : Term} (hgoal : Below b goal)
    (m : Threshold) : Below b (p.below goal m) :=
  Below.iff_forall.mpr fun π hπ ↦ by
    rw [smul_below, Below.iff_forall.mp hp π hπ, Below.iff_forall.mp hgoal π hπ]

theorem below_root (b : ℕ) (m : Threshold) : Below b (root m) :=
  Below.iff_forall.mpr fun _ _ ↦ rfl

end Position

theorem RuleStore.candidates_smul (s : RuleStore) (π : Perm ℕ) (goal : Term) :
    s.candidates (π • goal) = s.candidates goal := by
  rw [candidates, candidates, Term.predicate?_smul]

end Argumentation
