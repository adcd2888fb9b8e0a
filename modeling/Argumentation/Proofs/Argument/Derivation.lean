import Argumentation.Proofs.Argument.Drawing
import Argumentation.Proofs.Argument.Ground
import Argumentation.Proofs.Argument.Soundness
import Argumentation.Proofs.RuleStore.Indexing

namespace Argumentation

/-- A goal with the rule that concludes it and trees for the literals of the antecedent. -/
inductive Derivation where
  | node (goal : Term) (rule : RuleId) (premises : List Derivation)

namespace Derivation

mutual

/-- Whether a tree derives a goal that is to support others: a stored rule concludes the goal, and
its literals are derived in order. The goal is none of those it supports, and there are not more of
them than the greatest depth. -/
def Derives (store : RuleStore) (maxDepth : ℕ) (ancestors : List Term) (goal : Term) :
    Derivation → Prop
  | node claim id premises => claim = goal ∧ goal ∉ ancestors ∧ ancestors.length ≤ maxDepth ∧
    ∃ r ∈ store.rules, r.id = id ∧ r.consequent = goal ∧
      DeriveAll store maxDepth (goal :: ancestors) r.antecedent premises

def DeriveAll (store : RuleStore) (maxDepth : ℕ) (ancestors : List Term) :
    List Term → List Derivation → Prop
  | e :: es, T :: Ts => T.Derives store maxDepth ancestors e ∧
    DeriveAll store maxDepth ancestors es Ts
  | [], [] => True
  | _, _ => False

end

end Derivation

namespace Argument

mutual

/-- The tree of the claims of an argument and of the rules that were applied. -/
def derivation : Argument → Derivation
  | a@⟨_, rule, _, subs, _, _⟩ => .node a.claim rule.id (derivationAll subs)

def derivationAll : List Argument → List Derivation
  | [] => []
  | a :: as => derivation a :: derivationAll as

end

theorem derivationAll_eq_map (as : List Argument) : derivationAll as = as.map derivation := by
  induction as with
  | nil => rfl
  | cons a as ih => rw [derivationAll, ih, List.map_cons]

theorem derivation_mk (id : ArgumentId) (r : Rule) (s : Substitution) (subs : List Argument)
    (strength : Degree) (depth : ℕ) : derivation ⟨id, r, s, subs, strength, depth⟩ =
      .node (s.apply r.consequent) r.id (subs.map derivation) := by
  rw [derivation, derivationAll_eq_map]
  rfl

end Argument

/-- A constant or a compound term without variables, doubles and built-in operators. -/
def Term.isGroundLiteral (t : Term) : Bool :=
  t.isLiteral && t.isPlain

theorem Term.exists_of_isGroundLiteral {t : Term} (h : t.isGroundLiteral = true) :
    ∃ f xs, t = .app (.name f) xs := by
  cases t with
  | app g xs => cases g with
    | name f => exact ⟨f, xs, rfl⟩
    | op op => cases h
  | _ => cases h

def RuleStore.HasGroundLiterals (s : RuleStore) : Prop :=
  ∀ r ∈ s.rules, r.consequent.isGroundLiteral = true ∧
    ∀ e ∈ r.antecedent, e.isGroundLiteral = true

theorem forall₂_congr {α β : Type} {R S : α → β → Prop} {as : List α} {bs : List β}
    (h : ∀ a ∈ as, ∀ b, R a b ↔ S a b) : List.Forall₂ R as bs ↔ List.Forall₂ S as bs := by
  induction as generalizing bs with
  | nil => simp
  | cons a as ih =>
    simp only [List.forall₂_cons_left_iff, h a (.head _), ih fun a' ha' ↦ h a' (.tail _ ha')]

theorem Derivation.deriveAll_iff {store : RuleStore} {maxDepth : ℕ} {ancestors : List Term}
    {es : List Term} {Ts : List Derivation} : DeriveAll store maxDepth ancestors es Ts ↔
      List.Forall₂ (fun e T ↦ T.Derives store maxDepth ancestors e) es Ts := by
  induction es generalizing Ts with
  | nil => cases Ts <;> simp [DeriveAll]
  | cons e es ih => cases Ts <;> simp [DeriveAll, ih]

def selections {α : Type} : List (List α) → List (List α)
  | [] => [[]]
  | l :: ls => l.flatMap fun a ↦ (selections ls).map (a :: ·)

theorem mem_selections {α : Type} {ls : List (List α)} {as : List α} :
    as ∈ selections ls ↔ List.Forall₂ (fun l a ↦ a ∈ l) ls as := by
  induction ls generalizing as with
  | nil => simp [selections]
  | cons l ls ih =>
    simp only [selections, List.mem_flatMap, List.mem_map, List.forall₂_cons_left_iff, ih]
    constructor
    · rintro ⟨a, ha, as, has, rfl⟩
      exact ⟨a, as, ha, has, rfl⟩
    · rintro ⟨a, as, ha, has, rfl⟩
      exact ⟨a, ha, as, has, rfl⟩

theorem nodup_selections {α : Type} {ls : List (List α)} (h : ∀ l ∈ ls, l.Nodup) :
    (selections ls).Nodup := by
  induction ls with
  | nil => exact List.nodup_singleton []
  | cons l ls ih =>
    have hrest := ih fun l' hl' ↦ h l' (.tail _ hl')
    refine List.nodup_flatMap.mpr ⟨fun a _ ↦ hrest.map (List.cons_injective), ?_⟩
    refine (h l (.head _)).imp fun hne as has has' ↦ ?_
    obtain ⟨_, -, rfl⟩ := List.mem_map.mp has
    obtain ⟨_, -, heq⟩ := List.mem_map.mp has'
    exact hne (List.cons.inj heq).1.symm

namespace RuleStore

def derivations (s : RuleStore) : (levels : ℕ) → (ancestors : List Term) → Term → List Derivation
  | 0, _, _ => []
  | levels + 1, ancestors, goal =>
    if ancestors.any (·.isVariant goal) then []
    else (s.candidates goal).flatMap fun r ↦
      if r.consequent.same goal then
        (selections (r.antecedent.map (s.derivations levels (goal :: ancestors)))).map
          (.node goal r.id)
      else []

variable {s : RuleStore}

theorem Indexed.mem_candidates (h : s.Indexed) {goal : Term} (hgoal : goal.isGroundLiteral = true)
    {r : Rule} (hr : r.consequent = goal) : r ∈ s.candidates goal ↔ r ∈ s.rules := by
  obtain ⟨f, xs, rfl⟩ := Term.exists_of_isGroundLiteral hgoal
  rw [(h.candidates_perm rfl).mem_iff, List.mem_filter, hr]
  exact ⟨And.left, fun hmem ↦ ⟨hmem, decide_eq_true rfl⟩⟩

theorem Indexed.pairwise_candidates (h : s.Indexed) (goal : Term) :
    (s.candidates goal).Pairwise (·.id ≠ ·.id) := by
  cases hp : goal.predicate? with
  | none => simp [candidates, hp]
  | some p =>
    refine ((h.candidates_perm hp).pairwise_iff fun hne ↦ hne.symm).mpr ?_
    exact (List.pairwise_map.mp h.nodup).sublist List.filter_sublist

theorem nodup_derivations (h : s.Indexed) (levels : ℕ) (ancestors : List Term) (goal : Term) :
    (s.derivations levels ancestors goal).Nodup := by
  induction levels generalizing ancestors goal with
  | zero => exact .nil
  | succ levels ih =>
    rw [derivations]
    split
    · exact .nil
    · refine List.nodup_flatMap.mpr ⟨fun r _ ↦ ?_, (h.pairwise_candidates goal).imp ?_⟩
      · split
        · refine (nodup_selections ?_).map fun Ts Ts' heq ↦ (Derivation.node.inj heq).2.2
          simp only [List.forall_mem_map]
          exact fun e _ ↦ ih (goal :: ancestors) e
        · exact .nil
      · intro r r' hne T hT hT'
        obtain ⟨_, -, rfl⟩ := List.mem_map.mp (List.mem_ite_nil_right.mp hT).2
        obtain ⟨_, -, heq⟩ := List.mem_map.mp (List.mem_ite_nil_right.mp hT').2
        exact hne (Derivation.node.inj heq).2.1.symm

theorem repeats_iff {ancestors : List Term} (hancestors : ∀ g ∈ ancestors, g.isGroundLiteral = true)
    {goal : Term} : ancestors.any (·.isVariant goal) = true ↔ goal ∈ ancestors := by
  rw [List.any_eq_true]
  constructor
  · rintro ⟨g, hg, hvariant⟩
    have hplain := (Bool.and_eq_true_iff.mp (hancestors g hg)).2
    rwa [(Term.isVariant_iff_of_plain hplain).mp hvariant] at hg
  · intro hmem
    have hplain := (Bool.and_eq_true_iff.mp (hancestors goal hmem)).2
    exact ⟨goal, hmem, (Term.isVariant_iff_of_plain hplain).mpr rfl⟩

theorem mem_derivations (h : s.Indexed) (hs : s.HasGroundLiterals) {maxDepth levels : ℕ}
    {ancestors : List Term} (hlevels : levels + ancestors.length = maxDepth + 1)
    (hancestors : ∀ g ∈ ancestors, g.isGroundLiteral = true) {goal : Term}
    (hgroundGoal : goal.isGroundLiteral = true) {T : Derivation} :
    T ∈ s.derivations levels ancestors goal ↔ T.Derives s maxDepth ancestors goal := by
  induction levels generalizing ancestors goal T with
  | zero =>
    obtain ⟨claim, id, premises⟩ := T
    simp only [derivations, Derivation.Derives, List.not_mem_nil, false_iff]
    rintro ⟨-, -, hdepth, -⟩
    omega
  | succ levels ih =>
    obtain ⟨claim, id, premises⟩ := T
    have hdepth : ancestors.length ≤ maxDepth := by omega
    have hpremises (r : Rule) (hr : r ∈ s.rules) :
        premises ∈ selections (r.antecedent.map (s.derivations levels (goal :: ancestors))) ↔
          Derivation.DeriveAll s maxDepth (goal :: ancestors) r.antecedent premises := by
      rw [mem_selections, List.forall₂_map_left_iff, Derivation.deriveAll_iff]
      refine forall₂_congr fun e he T ↦ ih ?_ ?_ ((hs r hr).2 e he)
      · rw [List.length_cons]
        omega
      · exact List.forall_mem_cons.mpr ⟨hgroundGoal, hancestors⟩
    have hsame (r : Rule) (hr : r ∈ s.rules) :
        r.consequent.same goal = true ↔ r.consequent = goal :=
      Term.same_iff_of_plain _ goal (Bool.and_eq_true_iff.mp (hs r hr).1).2
    rw [derivations, Derivation.Derives, ← repeats_iff hancestors]
    split
    · rename_i hrepeats
      simp [hrepeats]
    · rename_i hrepeats
      simp only [List.mem_flatMap, List.mem_ite_nil_right, List.mem_map, Derivation.node.injEq]
      constructor
      · rintro ⟨r, hr, hgoal, Ts, hTs, rfl, rfl, rfl⟩
        have hmem : r ∈ s.rules := mem_of_mem_candidates hr
        exact ⟨rfl, hrepeats, hdepth, r, hmem, rfl, (hsame r hmem).mp hgoal,
          (hpremises r hmem).mp hTs⟩
      · rintro ⟨rfl, -, -, r, hmem, rfl, hgoal, hTs⟩
        exact ⟨r, (h.mem_candidates hgroundGoal hgoal).mpr hmem, (hsame r hmem).mpr hgoal, premises,
          (hpremises r hmem).mpr hTs, rfl, rfl, rfl⟩

end RuleStore

namespace Theory

variable {t : Theory} {n : ℕ}

def Stands (_ : ℕ) (a : Argument) (T : Derivation) : Prop :=
  a.substitution = .empty ∧ a.derivation = T

def StandAll (before : List Derivation) (_ : ℕ) (l : ArgumentList) (Ts : List Derivation) : Prop :=
  l.substitution = .empty ∧ l.arguments.map Argument.derivation = before ++ Ts

theorem lasting_stands : Flow.Lasting Stands :=
  fun _ _ _ _ _ h ↦ h

theorem lasting_standAll (before : List Derivation) : Flow.Lasting (StandAll before) :=
  fun _ _ _ _ _ h ↦ h

theorem lists_follows_selections {arguments : Substitution → Term → Flow Argument}
    {trees : Term → List Derivation} {es : List Term}
    (harguments : ∀ e ∈ es, ∀ m, n ≤ m → (arguments .empty e).Follows Stands m (trees e))
    {l : ArgumentList} (hl : l.substitution = .empty) :
    (lists arguments es l).Follows (StandAll (l.arguments.map Argument.derivation)) n
      (selections (es.map trees)) := by
  induction es generalizing l n with
  | nil => exact Flow.Follows.pure ⟨hl, (List.append_nil _).symm⟩
  | cons e es ih =>
    rw [lists, hl, List.map_cons, selections]
    refine (harguments e (.head _) n (Nat.le_refl n)).bind lasting_stands ?_
    intro m a T hnm ha _
    have hrest := ih (fun e' he' m' hm' ↦ harguments e' (.tail _ he') m' (hnm.trans hm'))
      (l := l.push a) ha.1
    refine hrest.map fun _ l' Ts hl' ↦ ⟨hl'.1, ?_⟩
    rw [hl'.2, ArgumentList.push, List.map_append, List.map_singleton, ha.2, List.append_assoc]
    rfl

theorem byRule_follows_selections (hstore : t.store.HasGroundLiterals) {r : Rule}
    (hr : r ∈ t.store.rules) {below : Position → Substitution → Term → Flow Argument} {p : Position}
    (hp : p.threshold = 0) {goal : Term} (hgoal : goal.isGroundLiteral = true)
    {trees : Term → List Derivation} (hbelow : ∀ e, e.isGroundLiteral = true → ∀ m, n ≤ m →
      (below (p.below goal 0) .empty e).Follows Stands m (trees e)) :
    (t.byRule below p .empty goal r).Follows Stands n
      (if r.consequent.same goal then (selections (r.antecedent.map trees)).map (.node goal r.id)
        else []) := by
  obtain ⟨hconsequent, hantecedent⟩ := hstore r hr
  have hplain := (Bool.and_eq_true_iff.mp hconsequent).2
  have hrenamed (base : ℕ) : (r.renameApart base).consequent = r.consequent :=
    Term.rename_of_plain _ _ hplain
  have hrenamed' (base : ℕ) : (r.renameApart base).antecedent = r.antecedent := by
    refine Term.renameAll_of_plain _ _ (Term.arePlain_iff.mpr fun e he ↦ ?_)
    exact (Bool.and_eq_true_iff.mp (hantecedent e he)).2
  have hsame := Term.same_iff_of_plain _ goal hplain
  have hzero : t.subThreshold 0 = 0 := ite_self 0
  have hmeets (d : Degree) : d.meets 0 = true := decide_eq_true (Nat.zero_le _)
  have hoccurrences := Term.occurrences_of_plain goal (Bool.and_eq_true_iff.mp hgoal).2
  rw [byRule, hp, if_neg (by simp [hmeets])]
  intro base hbase
  dsimp only
  rw [hrenamed, hrenamed', hzero]
  rcases Substitution.unify_of_plain .empty hplain hoccurrences rfl with
    ⟨heq, hunify⟩ | ⟨hne, hunify⟩
  · rw [hunify, if_neg (by decide), if_pos (hsame.mpr heq), List.map_eq_flatMap]
    have hlists := lists_follows_selections (n := base + r.allVars.length) (l := .empty .empty)
      (fun e he m hm ↦ hbelow e (hantecedent e he) m (by omega)) rfl
    refine hlists.bind (lasting_standAll _) fun m l Ts _ hl _ ↦ ?_
    rw [conclude, hp, if_pos (hmeets _)]
    refine fun id ↦ .pure ⟨hl.1, ?_⟩
    rw [Argument.derivation_mk, hrenamed, hl.1, heq, hl.2,
      Substitution.apply_of_plain _ (heq ▸ hplain)]
    rfl
  · rw [hunify, if_pos (show (!false) = true from rfl), if_neg (mt hsame.mp hne)]
    rfl

theorem solve_follows_derivations (hstore : t.store.HasGroundLiterals) (levels : ℕ) {p : Position}
    (hp : p.threshold = 0) {goal : Term} (hgoal : goal.isGroundLiteral = true) :
    (t.solve levels p .empty goal).Follows Stands n
      (t.store.derivations levels p.ancestors goal) := by
  -- Nothing is ever bound, so the goals below are the literals as they are stored.
  induction levels generalizing n p goal with
  | zero =>
    obtain ⟨f, xs, rfl⟩ := Term.exists_of_isGroundLiteral hgoal
    rfl
  | succ levels ih =>
    obtain ⟨f, xs, rfl⟩ := Term.exists_of_isGroundLiteral hgoal
    rw [solve, settle, RuleStore.derivations]
    show Flow.Follows _ n (if p.repeats _ then _ else _) (if p.repeats _ then _ else _)
    split
    · rfl
    · refine Flow.Follows.concat fun r hr m hm ↦ ?_
      have hmem := RuleStore.mem_of_mem_candidates hr
      refine byRule_follows_selections hstore hmem hp hgoal fun e he m' hm' ↦ ?_
      rw [Substitution.apply_of_plain _ (Bool.and_eq_true_iff.mp he).2]
      exact ih rfl he

/-- Over a store that came about by its operations, whose rules have literals without variables,
doubles and built-in operators, the trees of the arguments for such a literal are all its derivation
trees down to the greatest depth, and no tree comes up twice. -/
theorem arguments_enumerate (hreachable : t.store.Reachable) (hstore : t.store.HasGroundLiterals)
    {goal : Term} (hgoal : goal.isGroundLiteral = true) (supply : Supply) :
    (((t.arguments 0 goal).toList supply).1.map Argument.derivation).Nodup ∧
      ∀ T : Derivation, T ∈ ((t.arguments 0 goal).toList supply).1.map Argument.derivation ↔
        T.Derives t.store t.maxDepth [] goal := by
  have hfollows := solve_follows_derivations (n := supply.freeVariable) hstore (t.maxDepth + 1)
    (p := .root 0) rfl hgoal
  have hforall := hfollows.toList (s := supply) (Nat.le_refl _)
  have htrees : ((t.arguments 0 goal).toList supply).1.map Argument.derivation =
      t.store.derivations (t.maxDepth + 1) [] goal := by
    rw [arguments, argumentsUnder, Substitution.apply_of_plain _ (Bool.and_eq_true_iff.mp hgoal).2]
    exact List.forall₂_eq_eq_eq ▸ List.forall₂_map_left_iff.mpr (hforall.imp fun _ _ ⟨_, h⟩ ↦ h.2)
  rw [htrees]
  refine ⟨RuleStore.nodup_derivations hreachable.indexed _ _ _, fun T ↦ ?_⟩
  exact RuleStore.mem_derivations hreachable.indexed hstore rfl (by simp) hgoal

end Theory

namespace Theory

theorem ofRules_reachable (valuation : Valuation) (rules : List Rule) :
    (ofRules valuation rules).store.Reachable :=
  Engine.addAll_reachable (.empty false) rules

def mutualSupport : Theory :=
  ofRules .weakestLink [.plain (.const "p") [.const "q"] .one,
    .plain (.const "q") [.const "p"] .one, .plain (.const "p") [.const "r"] .one,
    .plain (.const "p") [.const "s"] .one, .plain (.const "r") [] .one,
    .plain (.const "s") [] .one]

theorem mutualSupport_enumerated :
    ((mutualSupport.arguments 0 (.const "p")).toList ⟨1, 1⟩).1.length = 2 ∧
    (((mutualSupport.arguments 0 (.const "p")).toList ⟨1, 1⟩).1.map Argument.derivation).Nodup ∧
      ∀ T : Derivation,
        T ∈ ((mutualSupport.arguments 0 (.const "p")).toList ⟨1, 1⟩).1.map Argument.derivation ↔
          T.Derives mutualSupport.store mutualSupport.maxDepth [] (.const "p") := by
  have hreachable : mutualSupport.store.Reachable := ofRules_reachable _ _
  have hground : mutualSupport.store.HasGroundLiterals := by
    unfold RuleStore.HasGroundLiterals
    decide +kernel
  have hgoal : (Term.const "p").isGroundLiteral = true := rfl
  exact ⟨by decide +kernel, arguments_enumerate hreachable hground hgoal ⟨1, 1⟩⟩

end Theory

end Argumentation
