import Argumentation.Proofs.Argument.Derivation
import Argumentation.Proofs.Argument.Passage
import Argumentation.Proofs.Argument.Sources
import Argumentation.Proofs.Argument.Threshold

namespace Argumentation

open Equiv (Perm)

def Symbol.isPositive : Symbol → Bool
  | op .notProvable => false
  | _ => true

abbrev Term.isPositive (t : Term) : Bool :=
  t.consistsOf Symbol.isPositive fun _ ↦ true

abbrev Substitution.IsPositive (s : Substitution) : Prop :=
  s.ConsistsOf Symbol.isPositive fun _ ↦ true

def RuleStore.IsPositive (s : RuleStore) : Prop :=
  ∀ r ∈ s.rules, r.consequent.isPositive = true ∧ ∀ e ∈ r.antecedent, e.isPositive = true

theorem Substitution.IsPositive.apply {s : Substitution} (hs : s.IsPositive) {t : Term}
    (ht : t.isPositive = true) : (s.apply t).isPositive = true :=
  ConsistsOf.apply (Term.foldsWithin_of_forall fun _ ↦ rfl) hs ht

theorem not_isPositive_of_settlement {s : Substitution} {goal inner : Term}
    (h : settlement s goal = .absent inner) : ¬goal.isPositive = true := by
  rw [eq_of_settlement_absent h]
  exact Bool.false_ne_true

namespace Theory

variable {t : Theory} {s u : Substitution} {goal literal : Term}

theorem Evaluates.isPositive (h : Evaluates s goal u) (hs : s.IsPositive) : u.IsPositive := by
  cases h with
  | number => exact hs
  | absent => exact hs
  | builtin h =>
    rcases Operator.evaluate_succeeded h with rfl | ⟨v, r, value, -, -, rfl, hconsistent⟩
    · exact hs
    · rcases Substitution.add_num_cases hconsistent with heq | ⟨heq, -⟩
      · rwa [heq]
      · rw [heq]
        exact Substitution.ConsistsOf.bound hs v rfl

theorem LookedUpAs.isPositive (h : LookedUpAs goal literal) (hgoal : goal.isPositive = true) :
    literal.isPositive = true := by
  cases h with
  | name => exact hgoal
  | arith h =>
    obtain ⟨op, xs, rfl, rfl⟩ := Term.arithLiteral?_eq_some.mp h
    exact Term.consistsOf_app.mpr ⟨rfl, (Term.consistsOf_app.mp hgoal).2⟩

/-- The instances of stored rules, and what they are unified with, bring in no negation. -/
theorem isPositive_of_mem_candidates (hpositive : t.store.IsPositive) {r : Rule}
    (hr : r ∈ t.store.candidates literal) (hs : s.IsPositive) (hliteral : literal.isPositive = true)
    (base : ℕ) : (s.unify (r.renameApart base).consequent literal).IsPositive ∧
      ∀ e ∈ (r.renameApart base).antecedent, e.isPositive = true := by
  have hstored := RuleStore.mem_of_mem_candidates hr
  obtain ⟨hconsequent, hantecedent⟩ := Rule.consistsOf_renameApart (hpositive r hstored) base
  exact ⟨Substitution.ConsistsOf.unify hs hconsequent hliteral, hantecedent⟩

mutual

theorem Built.isPositive (hpositive : t.store.IsPositive) {p : Position} {s : Substitution}
    {goal : Term} {a : Argument} :
    t.Built p s goal a → s.IsPositive → goal.isPositive = true → a.substitution.IsPositive
  | .evaluated _ h, hs, _ => h.isPositive hs
  | .concluded _ hliteral hr _ hl, hs, hgoal =>
    have h := isPositive_of_mem_candidates hpositive hr hs (hliteral.isPositive hgoal) _
    hl.isPositive hpositive h.1 h.2

theorem BuiltList.isPositive (hpositive : t.store.IsPositive) {p : Position} {s : Substitution}
    {es : List Term} {l : ArgumentList} :
    t.BuiltList p s es l → s.IsPositive → (∀ e ∈ es, e.isPositive = true) →
      l.substitution.IsPositive
  | .empty _ _, hs, _ => hs
  | .push hl ha, hs, hes =>
    have h := hl.isPositive hpositive hs fun e he ↦ hes e (List.mem_append_left _ he)
    ha.isPositive hpositive h (h.apply (hes _ (List.mem_append_right _ (.head _))))

end

end Theory

namespace Argument

variable (store : RuleStore) (d : ℕ)

/-- Whether an argument applies rules of a store at most at a depth. -/
def isWithin (a : Argument) : Bool :=
  a.subtree.all fun node ↦ (store.rule? node.rule.id).isNone || decide (node.depth ≤ d)

variable {store d} {a : Argument}

theorem isWithin_iff : a.isWithin store d = true ↔
    ((store.rule? a.rule.id).isNone = true ∨ a.depth ≤ d) ∧
      ∀ b ∈ a.subs, b.isWithin store d = true := by
  simp only [isWithin, List.all_eq_true, Bool.or_eq_true, decide_eq_true_eq]
  exact forall_mem_subtree

theorem isWithin_form (a : Argument) : a.form.isWithin store d = a.isWithin store d := by
  simp only [isWithin, subtree_form, List.all_map, Function.comp_def, form_rule, form_depth]

theorem isWithin_smul (π : Perm ℕ) (a : Argument) :
    (π • a).isWithin store d = a.isWithin store d := by
  induction a using Argument.induction with
  | step a ih =>
    rw [Bool.eq_iff_iff, isWithin_iff, isWithin_iff, smul_subs, List.forall_mem_map, smul_depth,
      smul_rule]
    exact and_congr_right fun _ ↦ forall_congr' fun b ↦ forall_congr' fun hb ↦ by rw [ih b hb]

end Argument

namespace ArgumentList

variable {store : RuleStore} {d : ℕ}

theorem isWithin_form (l : ArgumentList) :
    l.form.arguments.all (·.isWithin store d) = l.arguments.all (·.isWithin store d) := by
  simp only [form, List.all_map, Function.comp_def, Argument.isWithin_form]

theorem isWithin_smul (π : Perm ℕ) (l : ArgumentList) :
    (π • l).arguments.all (·.isWithin store d) = l.arguments.all (·.isWithin store d) := by
  show (l.arguments.map (π • ·)).all (·.isWithin store d) = _
  simp only [List.all_map, Function.comp_def, Argument.isWithin_smul]

end ArgumentList

namespace Theory

variable {t : Theory} {d : ℕ}

def limited (t : Theory) (d : ℕ) : Theory :=
  { t with maxDepth := d }

theorem evaluation_isWithin (hstore : t.store.Reachable) (p : Position) (goal : Term)
    (s : Substitution) : (evaluation p goal s).isWithin t.store d = true := by
  refine Argument.isWithin_iff.mpr ⟨.inl ?_, fun b hb ↦ by cases hb⟩
  rw [show (evaluation p goal s).rule.id = Rule.detached from rfl, hstore.rule?_detached]
  rfl

/-- An argument by a stored rule is within a depth if it stands there and those below it are. -/
theorem isWithin_concluded {r : Rule} {literal : Term} (hr : r ∈ t.store.candidates literal)
    (base : ℕ) (s : Substitution) (subs : List Argument) (strength : Degree) (depth : ℕ) :
    (Argument.mk 0 (r.renameApart base) s subs strength depth).isWithin t.store d =
      (decide (depth ≤ d) && subs.all (·.isWithin t.store d)) := by
  have hrule : t.store.rule? (r.renameApart base).id = some r :=
    RuleStore.rule?_of_mem_candidates hr
  rw [Bool.eq_iff_iff, Argument.isWithin_iff, hrule]
  simp

theorem allByRule_limited (hpositive : t.store.IsPositive) {p : Position} (hdepth : p.depth ≤ d)
    {computed computed' : Substitution → Term → ℕ → List (Argument × ℕ)}
    (h : ∀ u e n, u.IsPositive → e.isPositive = true →
      computed u e n = (computed' u e n).filter (·.1.isWithin t.store d) ∧
        ∀ x ∈ computed' u e n, x.1.substitution.IsPositive)
    {s : Substitution} (hs : s.IsPositive) {literal : Term} (hliteral : literal.isPositive = true)
    {r : Rule} (hr : r ∈ t.store.candidates literal) (n : ℕ) :
    (t.limited d).allByRule computed p s literal n r =
      (t.allByRule computed' p s literal n r).filter (·.1.isWithin t.store d) := by
  obtain ⟨hunified, hantecedent⟩ := isPositive_of_mem_candidates hpositive hr hs hliteral n
  have hlists := (allLists_keep Substitution.IsPositive
    (fun u n hu e he ↦ h u e n hu (hantecedent e he)) hunified (n + r.allVars.length)).1
  rw [allByRule, allByRule]
  dsimp only
  split
  · rw [hlists, List.filterMap_filter, List.filter_filterMap]
    refine List.filterMap_congr fun x _ ↦ ?_
    have hwithin (strength : Degree) := isWithin_concluded (d := d) hr n x.1.substitution
      x.1.arguments strength p.depth
    simp only [hdepth, decide_true, Bool.true_and] at hwithin
    rw [conclusion?, conclusion?]
    by_cases hmeets :
        (t.valuation.strength (r.renameApart n) x.1.arguments).meets p.threshold = true
    · simp [limited, hmeets, hwithin, Option.filter]
    · simp [limited, hmeets]
  · rfl

/-- A smaller bound on the depth may be left to the end of the computation. -/
theorem allArguments_limited (hstore : t.store.Reachable) (hpositive : t.store.IsPositive)
    (hd : d ≤ t.maxDepth) (p : Position) (goal : Term) : goal.isPositive = true →
    ∀ s n, s.IsPositive → (t.limited d).allArguments p s goal n =
      (t.allArguments p s goal n).filter (·.1.isWithin t.store d) := by
  induction p, goal using t.allArguments_induction with
  | step p goal ihbelow _ =>
    intro hgoal s n hs
    have hkept (u : Substitution) : [(evaluation p goal u, n)].filter
        (·.1.isWithin t.store d) = [(evaluation p goal u, n)] :=
      List.filter_cons_of_pos (evaluation_isWithin hstore p goal u)
    rw [allArguments_eq, allArguments_eq]
    split
    · rfl
    · exact (hkept _).symm
    · rename_i literal hsettlement
      have hliteral := (lookedUpAs_of_settlement hsettlement).isPositive hgoal
      by_cases hrepeats : p.repeats literal = true
      · rw [lookupAll, lookupAll, if_pos (.inr hrepeats), if_pos (.inr hrepeats)]
        rfl
      rcases Nat.lt_or_ge d p.depth with hdepth | hdepth
      · -- Every argument by a rule has a node here, which is too deep.
        rw [lookupAll, if_pos (.inl hdepth)]
        refine (List.filter_eq_nil_iff.mpr fun x hx ↦ ?_).symm
        obtain ⟨-, r, hr, -, l, -, rfl⟩ := mem_lookupAll hx
        simp [isWithin_concluded hr, Nat.not_le_of_lt hdepth]
      · have hguards : ¬(t.maxDepth < p.depth ∨ p.repeats literal = true) :=
          not_or_intro (by omega) hrepeats
        have hguards' : ¬((t.limited d).maxDepth < p.depth ∨ p.repeats literal = true) :=
          not_or_intro (Nat.not_lt_of_ge hdepth) hrepeats
        rw [lookupAll, lookupAll, if_neg hguards, if_neg hguards', List.filter_flatMap]
        refine List.flatMap_congr fun r hr ↦ allByRule_limited hpositive hdepth
          (fun u e n hu he ↦ ⟨?_, fun x hx ↦ ?_⟩) hs hliteral hr n
        · exact ihbelow (hdepth.trans hd) _ (u.apply e) rfl (hu.apply he) u n hu
        · exact (allArguments_built _ _ u n x hx).isPositive hpositive hu (hu.apply he)
    · exact absurd hgoal (not_isPositive_of_settlement ‹_›)

theorem forall₂_filter_of_alike {α : Type} [MulAction (Perm ℕ) α] {view : α → α} {keep : α → Bool}
    (hview : ∀ a, keep (view a) = keep a) (hsmul : ∀ (π : Perm ℕ) a, keep (π • a) = keep a) {n : ℕ}
    {as bs : List α} {xs : List (α × ℕ)}
    (has : List.Forall₂ (fun a x ↦ Alike view n a x.1) as (xs.filter (keep ·.1)))
    (hbs : List.Forall₂ (fun b x ↦ Alike view n b x.1) bs xs) :
    List.Forall₂ (Alike view n) as (bs.filter keep) := by
  have hiff (b : α) (x : α × ℕ) (h : Alike view n b x.1) : keep b = true ↔ keep x.1 = true := by
    rw [h.eq_of_invariant hview hsmul]
  have hkept := List.rel_filter (p := keep) (q := (keep ·.1)) (fun b x ↦ hiff b x) hbs
  exact forall₂_of_common has hkept fun _ _ _ ha hb ↦ ha.of_common hb

/-- If no stored rule has a negation as failure, searching for a goal or a conjunction without one
down to a smaller depth gives those arguments and lists of the search down to the greater depth,
in the same order, that apply no stored rule below the smaller depth, whatever numbers the two
searches take. -/
theorem limited_eq_filtered (hstore : t.store.Reachable) (hpositive : t.store.IsPositive)
    (hd : d ≤ t.maxDepth) (m : Threshold) {n : ℕ} {supply supply' : Supply}
    (hn : n ≤ supply.freeVariable) (hn' : n ≤ supply'.freeVariable) :
    (∀ e : Term, e.isPositive = true → (∀ v ∈ e.occurrences, v.id < n) →
      List.Forall₂ (Alike Argument.form n) (((t.limited d).arguments m e).toList supply).1
        (((t.arguments m e).toList supply').1.filter (·.isWithin t.store d))) ∧
    ∀ es : List Term, (∀ e ∈ es, e.isPositive = true) →
      (∀ e ∈ es, ∀ v ∈ e.occurrences, v.id < n) →
      List.Forall₂ (Alike ArgumentList.form n) (((t.limited d).argumentLists m es).toList supply).1
        (((t.argumentLists m es).toList supply').1.filter
          (·.arguments.all (·.isWithin t.store d))) := by
  have hempty := Substitution.below_empty n
  have hfilter (s : Substitution) (hs : s.IsPositive) (e : Term) (he : e.isPositive = true)
      (n : ℕ) : (t.limited d).allArguments (.root m) s (s.apply e) n =
        (t.allArguments (.root m) s (s.apply e) n).filter (·.1.isWithin t.store d) :=
    allArguments_limited hstore hpositive hd _ _ (hs.apply he) s n hs
  refine ⟨fun e hpos he ↦ ?_, fun es hpos hes ↦ ?_⟩
  · have he := Term.below_of_occurrences he
    have hlimited := argumentsUnder_alike (t := t.limited d) (m := m) hempty
      Substitution.acyclic_empty he hn
    have hall := argumentsUnder_alike (t := t) (m := m) hempty Substitution.acyclic_empty he hn'
    rw [hfilter .empty Substitution.consistsOf_empty e hpos] at hlimited
    exact forall₂_filter_of_alike Argument.isWithin_form Argument.isWithin_smul hlimited hall
  · have hes (e : Term) (he : e ∈ es) : Below n e := Term.below_of_occurrences (hes e he)
    have hlimited := listsUnder_alike (t := t.limited d) (m := m) hempty
      Substitution.acyclic_empty hes hn
    have hall := listsUnder_alike (t := t) (m := m) hempty Substitution.acyclic_empty hes hn'
    have hkeep := (allLists_keep Substitution.IsPositive (fun u n hu e he ↦
      ⟨hfilter u hu e (hpos e he) n, fun x hx ↦ (allArguments_built _ _ u n x hx).isPositive
        hpositive hu (hu.apply (hpos e he))⟩) Substitution.consistsOf_empty n).1
    rw [hkeep] at hlimited
    exact forall₂_filter_of_alike ArgumentList.isWithin_form ArgumentList.isWithin_smul hlimited
      hall

def steps : Theory :=
  let x := Term.var ⟨"X", 1⟩
  let y := Term.var ⟨"Y", 2⟩
  let z := Term.var ⟨"Z", 3⟩
  let less (a b : Term) := Term.app (.op (.comparison .less)) [a, b]
  ofRules .weakestLink [.plain (.literal "step" [x, y]) [less x (.num (.int 2)),
      .app (.op .is) [y, .app (.op (.arith .add)) [x, .num (.int 1)]]] .one,
    .plain (.literal "reach" [x, y]) [.literal "step" [x, y], less x y] .one,
    .plain (.literal "reach" [x, z]) [.literal "step" [x, y], .literal "reach" [y, z]] .one]

def reached : Term :=
  .literal "reach" [.num (.int 0), .var ⟨"W", 4⟩]

/-- The number 2 is reached by a rule at depth 2, while evaluations at this depth do not count. -/
theorem steps_limited :
    (((steps.arguments 0 reached).toList ⟨5, 1⟩).1.map fun a ↦
      (a.isWithin steps.store 1, a.subtree.map (·.depth))) =
        [(true, [0, 1, 1, 2, 2]), (false, [0, 1, 1, 2, 2, 2, 2, 3, 3])] ∧
    List.Forall₂ (Alike Argument.form 5)
      (((steps.limited 1).arguments 0 reached).toList ⟨5, 1⟩).1
      (((steps.arguments 0 reached).toList ⟨5, 1⟩).1.filter (·.isWithin steps.store 1)) ∧
    List.Forall₂ (Alike ArgumentList.form 5)
      (((steps.limited 1).argumentLists 0 [reached, reached]).toList ⟨5, 1⟩).1
      (((steps.argumentLists 0 [reached, reached]).toList ⟨5, 1⟩).1.filter
        (·.arguments.all (·.isWithin steps.store 1))) := by
  have hreachable : steps.store.Reachable := ofRules_reachable _ _
  have hpositive : steps.store.IsPositive := by
    unfold RuleStore.IsPositive
    decide +kernel
  have hnumbers : 5 ≤ (⟨5, 1⟩ : Supply).freeVariable := Nat.le_refl 5
  have hdepth : 1 ≤ steps.maxDepth := by decide
  have hlimited := limited_eq_filtered hreachable hpositive hdepth 0 hnumbers hnumbers
  exact ⟨by decide +kernel, hlimited.1 reached (by decide) (by decide),
    hlimited.2 [reached, reached] (by decide) (by decide)⟩

end Theory

end Argumentation
