import Argumentation.Proofs.Argument.Agreement
import Argumentation.Proofs.Substitution.Frame

namespace Argumentation

open Equiv (Perm)

open Substitution (Framed)

theorem Term.isAbove_rename {b : ℕ} {f : Variable → Variable} {t : Term}
    (h : ∀ v ∈ t.occurrences, b ≤ (f v).id) : (t.rename f).IsAbove b := by
  induction t using Term.induction with
  | var v => exact Term.isAbove_var.mpr (h v (.head _))
  | num n => exact fun v hv ↦ by cases hv
  | app g xs ih =>
    rw [rename, renameAll_eq_map]
    refine isAbove_app.mpr fun y hy ↦ ?_
    obtain ⟨x, hx, rfl⟩ := List.mem_map.mp hy
    exact ih x hx fun v hv ↦ h v (mem_occurrencesAll.mpr ⟨x, hx, hv⟩)

theorem Rule.isAbove_renameApart (r : Rule) {b n : ℕ} (h : b ≤ n) :
    (r.renameApart n).consequent.IsAbove b ∧ ∀ e ∈ (r.renameApart n).antecedent, e.IsAbove b := by
  have hrename (t : Term) : (t.rename fun v ↦ ⟨v.name, n + r.allVars.idxOf v⟩).IsAbove b :=
    Term.isAbove_rename fun v _ ↦ h.trans (Nat.le_add_right n _)
  refine ⟨hrename r.consequent, fun e he ↦ ?_⟩
  rw [renameApart, rename, Term.renameAll_eq_map] at he
  obtain ⟨x, -, rfl⟩ := List.mem_map.mp he
  exact hrename x

theorem Term.isAbove_of_arithLiteral? {b : ℕ} {t literal : Term}
    (h : t.arithLiteral? = some literal) (ht : t.IsAbove b) : literal.IsAbove b := by
  obtain ⟨op, xs, rfl, rfl⟩ := arithLiteral?_eq_some.mp h
  exact isAbove_app.mpr (isAbove_app.mp ht)

theorem forall₂_flatMap {α β γ δ : Type} {R : α → γ → Prop} {S : β → δ → Prop} {l : List α}
    {l' : List γ} {f : α → List β} {g : γ → List δ} (h : List.Forall₂ R l l')
    (hf : ∀ a ∈ l, ∀ c, R a c → List.Forall₂ S (f a) (g c)) :
    List.Forall₂ S (l.flatMap f) (l'.flatMap g) := by
  induction h with
  | nil => exact .nil
  | cons hac _ ih =>
    rw [List.flatMap_cons, List.flatMap_cons]
    exact List.rel_append (hf _ (.head _) _ hac) (ih fun a ha ↦ hf a (.tail _ ha))

inductive Settlement.Parallel (b : ℕ) : Settlement → Settlement → Prop where
  | unsolved : Parallel b .unsolved .unsolved
  | evaluated {s u : Substitution} : Framed b s u → Parallel b (.evaluated s) (.evaluated u)
  | lookup {literal : Term} : literal.IsAbove b → Parallel b (.lookup literal) (.lookup literal)
  | absent {inner : Term} : inner.IsAbove b → Parallel b (.absent inner) (.absent inner)

theorem settlement_parallel {b : ℕ} {s u : Substitution} (h : Framed b s u) {goal : Term}
    (hgoal : goal.IsAbove b) : Settlement.Parallel b (settlement s goal) (settlement u goal) := by
  cases goal with
  | var v => exact .unsolved
  | num n => exact .evaluated h
  | app g xs =>
    cases g with
    | name f => exact .lookup hgoal
    | op op =>
      have hxs := Term.isAbove_app.mp hgoal
      by_cases hinner : ∃ inner, op = .notProvable ∧ xs = [inner]
      · obtain ⟨inner, rfl, rfl⟩ := hinner
        exact .absent (hxs inner (.head _))
      · rw [settlement_builtin hinner, settlement_builtin hinner]
        have hevaluate := op.evaluate_parallel h hxs
        generalize op.evaluate xs s = x at hevaluate ⊢
        generalize op.evaluate xs u = y at hevaluate ⊢
        cases hevaluate with
        | succeeded h' => exact .evaluated h'
        | failed => exact .unsolved
        | lookup =>
          dsimp only
          cases hliteral : (Term.app (.op op) xs).arithLiteral? with
          | none => exact .unsolved
          | some literal => exact .lookup (Term.isAbove_of_arithLiteral? hliteral hgoal)

def Position.relocate (p : Position) (π : Perm ℕ) (k : ℕ) (goals : List Term) : Position :=
  ⟨p.threshold, p.depth + k, p.ancestors.map (π • ·) ++ goals⟩

section Relocate

variable (p : Position) (π : Perm ℕ) (k : ℕ) (goals : List Term)

theorem Position.relocate_below (goal : Term) (m : Threshold) :
    (p.below goal m).relocate π k goals = (p.relocate π k goals).below (π • goal) m := by
  simp only [relocate, below, List.map_cons, List.cons_append, Nat.add_right_comm]

theorem Position.relocate_repeats (goal : Term) : (p.relocate π k goals).repeats (π • goal) =
    (p.repeats goal || goals.any (·.isVariant goal)) := by
  simp only [repeats, relocate, List.any_append, List.any_map, Function.comp_def,
    Term.isVariant_smul_left, Term.isVariant_smul_right]

variable {p π} in
theorem Position.relocate_congr {n : ℕ} (hp : Below n p) {ρ : Perm ℕ} (h : ∀ i < n, ρ i = π i) :
    p.relocate ρ k goals = p.relocate π k goals := by
  have hancestors : p.ancestors.map (ρ • ·) = p.ancestors.map (π • ·) :=
    congrArg Position.ancestors (hp.smul_eq h)
  rw [relocate, relocate, hancestors]

end Relocate

namespace Theory

def extendAll (arguments : Substitution → Term → ℕ → List (Argument × ℕ))
    (ls : List (ArgumentList × ℕ)) (e : Term) : List (ArgumentList × ℕ) :=
  ls.flatMap fun (l, n) ↦ (arguments l.substitution e n).map fun (a, n) ↦ (l.push a, n)

/-- The literals looked up for a conjunction after each of some lists, given those looked up for
each of its literals. -/
def lookupsAll (arguments : Substitution → Term → ℕ → List (Argument × ℕ))
    (lookups : Substitution → Term → ℕ → List (ℕ × Term)) :
    List (ArgumentList × ℕ) → List Term → List (ℕ × Term)
  | _, [] => []
  | ls, e :: es =>
    ls.flatMap (fun (l, n) ↦ lookups l.substitution e n) ++
      lookupsAll arguments lookups (extendAll arguments ls e) es

def lookups (t : Theory) : (levels : ℕ) → Position → Substitution → Term → ℕ → List (ℕ × Term)
  | 0, _, _, _, _ => []
  | levels + 1, p, s, goal, n =>
    match settlement s goal with
    | .lookup literal =>
      if p.repeats literal then []
      else
        let q := p.below literal (t.subThreshold p.threshold)
        (p.depth, literal) :: (t.store.candidates literal).flatMap fun r ↦
          let renamed := r.renameApart n
          let unified := s.unify renamed.consequent literal
          if unified.isConsistent then
            lookupsAll (fun u e n ↦ t.allArguments q u (u.apply e) n)
              (fun u e n ↦ t.lookups levels q u (u.apply e) n)
              [(.empty unified, n + r.allVars.length)] renamed.antecedent
          else []
    | .absent inner => t.lookups levels (p.below goal 0) s inner n
    | _ => []

def Admits (t : Theory) (k : ℕ) (goals : List Term) (y : ℕ × Term) : Prop :=
  y.1 + k ≤ t.maxDepth ∧ ∀ g ∈ goals, g.isVariant y.2 = false

instance (t : Theory) (k : ℕ) (goals : List Term) (y : ℕ × Term) :
    Decidable (t.Admits k goals y) :=
  inferInstanceAs (Decidable (_ ∧ _))

/-- Bindings found in one place and in another one, with the numbers that are free then: the second
ones are the first ones, renumbered, beside bindings that stand apart. -/
structure Relocated (b c : ℕ) (π : Perm ℕ) (x y : Substitution × ℕ) : Prop where
  le : c ≤ x.2
  apart : b ≤ y.2
  below : Below x.2 x.1
  leads : ∃ ρ : Perm ℕ, (∀ i < c, ρ i = π i) ∧ (∀ i < x.2, ρ i < y.2) ∧ Framed b (ρ • x.1) y.1

variable {t : Theory} {k : ℕ} {goals : List Term} {b c d n n' : ℕ} {π ρ : Perm ℕ}

theorem Relocated.of_extension {x y : Substitution × ℕ} (h : Relocated b d ρ x y) (hcd : c ≤ d)
    (hρ : ∀ i < c, ρ i = π i) : Relocated b c π x y := by
  obtain ⟨σ, hσ, hlt, hframed⟩ := h.leads
  refine ⟨hcd.trans h.le, h.apart, h.below, σ, fun i hi ↦ ?_, hlt, hframed⟩
  rw [hσ i (hi.trans_le hcd), hρ i hi]

def Match (b c : ℕ) (π : Perm ℕ) : List (Argument × ℕ) → List (Argument × ℕ) → Prop :=
  List.Forall₂ fun x y ↦ Relocated b c π (x.1.substitution, x.2) (y.1.substitution, y.2)

def MatchLists (b c : ℕ) (π : Perm ℕ) :
    List (ArgumentList × ℕ) → List (ArgumentList × ℕ) → Prop :=
  List.Forall₂ fun x y ↦ Relocated b c π (x.1.substitution, x.2) (y.1.substitution, y.2)

theorem Match.of_extension {xs ys : List (Argument × ℕ)} (h : Match b d ρ xs ys) (hcd : c ≤ d)
    (hρ : ∀ i < c, ρ i = π i) : Match b c π xs ys :=
  h.imp fun _ _ hxy ↦ hxy.of_extension hcd hρ

/-- Whatever has been bound, the arguments in one place match those in the other one, if everything
looked up in the first place is admitted in the second one. -/
def Relocates (t : Theory) (k : ℕ) (goals : List Term)
    (computed computed' : Substitution → Term → ℕ → List (Argument × ℕ))
    (looked : Substitution → Term → ℕ → List (ℕ × Term)) (b c : ℕ) (π : Perm ℕ) : Prop :=
  ∀ (ρ : Perm ℕ) (d d' : ℕ) (s u : Substitution) (e : Term), c ≤ d → b ≤ d' →
    (∀ i < c, ρ i = π i) → (∀ i < d, ρ i < d') → Below d s → Below d e → Framed b (ρ • s) u →
    (ρ • e).IsAbove b → (∀ y ∈ looked s e d, t.Admits k goals y) →
    Match b d ρ (computed s e d) (computed' u (ρ • e) d')

section Lists

variable {computed computed' : Substitution → Term → ℕ → List (Argument × ℕ)}
  {looked : Substitution → Term → ℕ → List (ℕ × Term)} {ls ls' : List (ArgumentList × ℕ)}

theorem Relocates.extendAll (h : Relocates t k goals computed computed' looked b c π)
    (hls : MatchLists b c π ls ls') {e : Term} (he : Below c e) (habove : (π • e).IsAbove b)
    (hlooked : ∀ x ∈ ls, ∀ y ∈ looked x.1.substitution e x.2, t.Admits k goals y) :
    MatchLists b c π (extendAll computed ls e) (extendAll computed' ls' (π • e)) := by
  refine forall₂_flatMap hls fun x hx y hxy ↦ ?_
  obtain ⟨ρ, hρ, hlt, hframed⟩ := hxy.leads
  have hsame : ρ • e = π • e := he.smul_eq hρ
  have harguments := h ρ x.2 y.2 x.1.substitution y.1.substitution e hxy.le hxy.apart hρ hlt
    hxy.below (he.mono hxy.le) hframed (hsame ▸ habove) (hlooked x hx)
  rw [hsame] at harguments
  refine List.forall₂_map_left_iff.mpr (List.forall₂_map_right_iff.mpr ?_)
  exact harguments.of_extension hxy.le hρ

theorem Relocates.foldl (h : Relocates t k goals computed computed' looked b c π)
    (hls : MatchLists b c π ls ls') {es : List Term} (hes : ∀ e ∈ es, Below c e)
    (habove : ∀ e ∈ es, (π • e).IsAbove b)
    (hlooked : ∀ y ∈ lookupsAll computed looked ls es, t.Admits k goals y) :
    MatchLists b c π (es.foldl (Theory.extendAll computed) ls)
      ((es.map (π • ·)).foldl (Theory.extendAll computed') ls') := by
  induction es generalizing ls ls' with
  | nil => exact hls
  | cons e es ih =>
    rw [lookupsAll] at hlooked
    refine ih ?_ (fun x hx ↦ hes x (.tail _ hx)) (fun x hx ↦ habove x (.tail _ hx)) ?_
    · refine h.extendAll hls (hes e (.head _)) (habove e (.head _)) fun x hx y hy ↦ ?_
      exact hlooked y (List.mem_append_left _ (List.mem_flatMap.mpr ⟨x, hx, hy⟩))
    · exact fun y hy ↦ hlooked y (List.mem_append_right _ hy)

end Lists

theorem Relocates.extend {computed computed' : Substitution → Term → ℕ → List (Argument × ℕ)}
    {looked : Substitution → Term → ℕ → List (ℕ × Term)}
    (h : Relocates t k goals computed computed' looked b c π) (hcd : c ≤ d)
    (hρ : ∀ i < c, ρ i = π i) : Relocates t k goals computed computed' looked b d ρ :=
  fun σ m m' s u e hdm hm hσ ↦ h σ m m' s u e (hcd.trans hdm) hm fun i hi ↦
    (hσ i (hi.trans_le hcd)).trans (hρ i hi)

theorem conclusion?_of_zero {p : Position} (hp : p.threshold = 0) (r : Rule) (l : ArgumentList) :
    t.conclusion? p r l = some
      ⟨0, r, l.substitution, l.arguments, t.valuation.strength r l.arguments, p.depth⟩ := by
  rw [conclusion?, hp]
  exact if_pos (Degree.meets_zero _)

theorem MatchLists.conclude {ls ls' : List (ArgumentList × ℕ)} (h : MatchLists b c π ls ls')
    {p p' : Position} (hp : p.threshold = 0) (hp' : p'.threshold = 0) (r r' : Rule) :
    Match b c π (ls.filterMap fun (l, n) ↦ (t.conclusion? p r l).map (·, n))
      (ls'.filterMap fun (l, n) ↦ (t.conclusion? p' r' l).map (·, n)) := by
  induction h with
  | nil => exact .nil
  | cons hxy _ ih =>
    simp only [List.filterMap_cons, conclusion?_of_zero hp, conclusion?_of_zero hp',
      Option.map_some] at ih ⊢
    exact .cons hxy ih

theorem allByRule_relocated {computed computed' : Substitution → Term → ℕ → List (Argument × ℕ)}
    {looked : Substitution → Term → ℕ → List (ℕ × Term)}
    (h : Relocates t k goals computed computed' looked b n π) {p p' : Position}
    (hp : p.threshold = 0) (hp' : p'.threshold = 0) (hn : b ≤ n') (hπ : ∀ i < n, π i < n')
    {s u : Substitution} (hs : Below n s) (hframed : Framed b (π • s) u) {literal : Term}
    (hliteral : Below n literal) (habove : (π • literal).IsAbove b) (r : Rule)
    (hlooked : (s.unify (r.renameApart n).consequent literal).isConsistent = true →
      ∀ y ∈ lookupsAll computed looked
        [(.empty (s.unify (r.renameApart n).consequent literal), n + r.allVars.length)]
        (r.renameApart n).antecedent, t.Admits k goals y) :
    Match b n π (t.allByRule computed p s literal n r)
      (t.allByRule computed' p' u (π • literal) n' r) := by
  obtain ⟨ρ, hρ, hlt, hrenamed⟩ := r.exists_smul_renameApart hπ
  obtain ⟨hconsequent, hantecedent⟩ := r.isAbove_renameApart hn
  have hle : n ≤ n + r.allVars.length := Nat.le_add_right n _
  have hbelow := r.below_renameApart n
  have hunify : ρ • s.unify (r.renameApart n).consequent literal =
      (ρ • s).unify (ρ • r.renameApart n).consequent (ρ • literal) :=
    Substitution.smul_unify ρ s _ literal
  have hunified : Below (n + r.allVars.length) (s.unify (r.renameApart n).consequent literal) :=
    Substitution.below_unify (hs.mono hle) (Rule.below_consequent hbelow) (hliteral.mono hle)
  have hparallel := hframed.unify hconsequent habove
  rw [← hs.smul_eq hρ, ← hliteral.smul_eq hρ, ← hrenamed, ← hunify] at hparallel
  rw [allByRule, allByRule]
  dsimp only
  rw [← hliteral.smul_eq hρ, ← hrenamed]
  rcases hparallel with ⟨hfailed, hfailed'⟩ | hparallel
  · rw [Substitution.isConsistent_smul] at hfailed
    rw [if_neg (by simp [hfailed]), if_neg (by simp [hfailed'])]
    exact .nil
  · have hconsistent := hparallel.left_consistent
    rw [Substitution.isConsistent_smul] at hconsistent
    rw [if_pos hconsistent, if_pos hparallel.right_consistent, Rule.smul_antecedent]
    have habove (e : Term) (he : e ∈ (r.renameApart n).antecedent) : (ρ • e).IsAbove b := by
      refine hantecedent _ ?_
      rw [← hrenamed, Rule.smul_antecedent]
      exact List.mem_map_of_mem he
    have hstart : MatchLists b (n + r.allVars.length) ρ
        [(.empty (s.unify (r.renameApart n).consequent literal), n + r.allVars.length)]
        [(.empty (u.unify (ρ • r.renameApart n).consequent (ρ • literal)),
          n' + r.allVars.length)] :=
      .cons ⟨Nat.le_refl _, hn.trans (Nat.le_add_right n' _), hunified, ρ, fun _ _ ↦ rfl, hlt,
        hparallel⟩ .nil
    have hlists := (h.extend hle hρ).foldl hstart (Rule.below_antecedent hbelow) habove
      (hlooked hconsistent)
    exact (hlists.conclude hp hp' _ _).of_extension hle hρ

/-- Where a goal under negation as failure is looked up, so is the one below. -/
theorem lookups_absent {p : Position} {s : Substitution} {goal inner : Term}
    (h : settlement s goal = .absent inner) (n : ℕ) :
    ∀ y ∈ t.lookups (t.maxDepth + 1 - (p.depth + 1)) (p.below goal 0) s inner n,
      y ∈ t.lookups (t.maxDepth + 1 - p.depth) p s goal n := by
  intro y hy
  rcases Nat.lt_or_ge t.maxDepth p.depth with hdepth | hdepth
  · rw [show t.maxDepth + 1 - (p.depth + 1) = 0 by omega] at hy
    cases hy
  · rw [show t.maxDepth + 1 - p.depth = t.maxDepth + 1 - (p.depth + 1) + 1 by omega, lookups, h]
    exact hy

/-- Whether the arguments for a goal match those for the goal asked so many levels further down,
below some goals and beside bindings that stand apart, if all literals looked up on the way are
admitted there. -/
def Movable (t : Theory) (k : ℕ) (goals : List Term) (b : ℕ) (p : Position) (goal : Term) : Prop :=
  ∀ {π : Perm ℕ} {n n' : ℕ} {s u : Substitution}, Below n p → b ≤ n' → (∀ i < n, π i < n') →
    Below n s → Below n goal → Framed b (π • s) u → (π • goal).IsAbove b →
    (∀ y ∈ t.lookups (t.maxDepth + 1 - p.depth) p s goal n, t.Admits k goals y) →
    Match b n π (t.allArguments p s goal n)
      (t.allArguments (p.relocate π k goals) u (π • goal) n')

theorem relocates_of_movable {q : Position} (hq : Below n q) (h : ∀ e, t.Movable k goals b q e) :
    Relocates t k goals (fun u e n ↦ t.allArguments q u (u.apply e) n)
      (fun u e n ↦ t.allArguments (q.relocate π k goals) u (u.apply e) n)
      (fun u e n ↦ t.lookups (t.maxDepth + 1 - q.depth) q u (u.apply e) n) b n π := by
  intro ρ d d' s u e hd hd' hρ hlt hs he hframed habove hlooked
  have happlied : u.apply (ρ • e) = ρ • s.apply e := by
    rw [hframed.apply habove, Substitution.smul_apply]
  have habove' : (ρ • s.apply e).IsAbove b := by
    rw [Substitution.smul_apply]
    exact hframed.isAbove_apply habove
  dsimp only
  rw [happlied, ← q.relocate_congr k goals hq hρ]
  exact h (s.apply e) (hq.mono hd) hd' hlt hs (Substitution.below_apply hs he) hframed habove'
    hlooked

theorem lookupAll_relocated {p : Position} (hp : p.threshold = 0) (hpos : Below n p) (hn : b ≤ n')
    (hπ : ∀ i < n, π i < n') {s u : Substitution} (hs : Below n s) (hframed : Framed b (π • s) u)
    {goal literal : Term} (hsettlement : settlement s goal = .lookup literal)
    (hliteral : Below n literal) (habove : (π • literal).IsAbove b)
    (hbelow : p.depth ≤ t.maxDepth → ∀ e, t.Movable k goals b (p.below literal 0) e)
    (hlooked : ∀ y ∈ t.lookups (t.maxDepth + 1 - p.depth) p s goal n, t.Admits k goals y) :
    Match b n π (t.lookupAll p s literal n)
      (t.lookupAll (p.relocate π k goals) u (π • literal) n') := by
  rw [lookupAll, lookupAll, p.relocate_repeats, RuleStore.candidates_smul]
  have hdeep : (p.relocate π k goals).depth = p.depth + k := rfl
  by_cases hguards : t.maxDepth < p.depth ∨ p.repeats literal = true
  · rw [if_pos hguards, if_pos]
    · exact .nil
    · rcases hguards with hguards | hguards
      · left
        omega
      · right
        rw [hguards, Bool.true_or]
  obtain ⟨hdepth, hrepeats⟩ := not_or.mp hguards
  rw [show t.maxDepth + 1 - p.depth = t.maxDepth - p.depth + 1 by omega, lookups,
    hsettlement] at hlooked
  simp only [if_neg hrepeats] at hlooked
  obtain ⟨⟨hfits, hvariant⟩, hrules⟩ := List.forall_mem_cons.mp hlooked
  have hgoals : goals.any (·.isVariant literal) = false := by
    rw [List.any_eq_false]
    exact fun g hg ↦ by simp [hvariant g hg]
  have hguards' : ¬(t.maxDepth < (p.relocate π k goals).depth ∨
      (p.repeats literal || goals.any (·.isVariant literal)) = true) := by
    rw [hgoals, Bool.or_false]
    refine not_or_intro ?_ hrepeats
    dsimp only at hfits
    omega
  rw [if_neg hguards, if_neg hguards']
  have hzero : t.subThreshold p.threshold = 0 := by
    rw [hp]
    exact ite_self 0
  have hp' : (p.relocate π k goals).threshold = 0 := hp
  have hzero' : t.subThreshold (p.relocate π k goals).threshold = 0 := hzero
  rw [hzero] at hrules ⊢
  rw [hzero', ← p.relocate_below]
  refine forall₂_flatMap (List.forall₂_same.mpr fun _ _ ↦ rfl) ?_
  rintro r hr _ rfl
  have hrelocates := relocates_of_movable (π := π) (Position.below_below hpos hliteral 0)
    (hbelow (by omega))
  refine allByRule_relocated hrelocates hp hp' hn hπ hs hframed hliteral habove r ?_
  intro hconsistent y hy
  refine hrules y (List.mem_flatMap.mpr ⟨r, hr, ?_⟩)
  rw [if_pos hconsistent]
  rwa [show t.maxDepth + 1 - (p.below literal 0).depth = t.maxDepth - p.depth by
    simp only [Position.below]; omega] at hy

theorem allArguments_relocated (t : Theory) (k : ℕ) (goals : List Term) (b : ℕ) (p : Position)
    (goal : Term) : p.threshold = 0 → t.Movable k goals b p goal := by
  induction p, goal using t.allArguments_induction with
  | step p goal ihbelow ihinner =>
    intro hp π n n' s u hpos hn hπ hs hgoal hframed habove hlooked
    have hsettled := settlement_parallel hframed habove
    rw [settlement_smul] at hsettled
    rw [allArguments_eq, allArguments_eq]
    generalize settlement u (π • goal) = settled at hsettled ⊢
    cases hsettlement : settlement s goal with
    | unsolved =>
      rw [hsettlement] at hsettled
      cases hsettled
      exact .nil
    | evaluated v =>
      rw [hsettlement] at hsettled
      have hv : Below n v := isBelow_of_settlement hs hgoal hsettlement
      cases hsettled with
      | evaluated h => exact .cons ⟨Nat.le_refl n, hn, hv, π, fun _ _ ↦ rfl, hπ, h⟩ .nil
    | lookup literal =>
      rw [hsettlement] at hsettled
      have hliteral : Below n literal := isBelow_of_settlement hs hgoal hsettlement
      cases hsettled with
      | lookup habove =>
        refine lookupAll_relocated hp hpos hn hπ hs hframed hsettlement hliteral habove ?_ hlooked
        exact fun hdepth e ↦ ihbelow hdepth (p.below literal 0) e rfl rfl
    | absent inner =>
      rw [hsettlement] at hsettled
      have hinner : Below n inner := isBelow_of_settlement hs hgoal hsettlement
      cases hsettled with
      | absent habove' =>
        have hmatch := ihinner inner (eq_of_settlement_absent hsettlement) (p.below goal 0) rfl rfl
          (Position.below_below hpos hgoal 0) hn hπ hs hinner hframed habove'
          fun y hy ↦ hlooked y (lookups_absent hsettlement n y hy)
        rw [p.relocate_below] at hmatch
        have hlength := hmatch.length_eq
        dsimp only
        simp only [List.isEmpty_iff_length_eq_zero, hlength]
        split
        · exact .cons ⟨Nat.le_refl n, hn, hs, π, fun _ _ ↦ rfl, hπ, hframed⟩ .nil
        · exact .nil

end Theory

end Argumentation
