import Argumentation.Proofs.Argument.Recursion
import Argumentation.Proofs.Argument.Renumbering
import Argumentation.Proofs.Argument.Strength

namespace Argumentation

open Equiv (Perm)

namespace ArgumentList

theorem form_push (l : ArgumentList) (a : Argument) : (l.push a).form = l.form.push a.form := by
  simp [form, push]

theorem smul_push (π : Perm ℕ) (l : ArgumentList) (a : Argument) :
    π • l.push a = (π • l).push (π • a) := by
  show ArgumentList.mk ((l.arguments ++ [a]).map (π • ·)) (π • a.substitution) = _
  rw [List.map_append, List.map_singleton, ← Argument.smul_substitution]
  rfl

end ArgumentList

def Settlement.renumber (π : Perm ℕ) : Settlement → Settlement
  | unsolved => unsolved
  | evaluated u => evaluated (π • u)
  | lookup literal => lookup (π • literal)
  | absent inner => absent (π • inner)

theorem settlement_smul (π : Perm ℕ) (s : Substitution) (goal : Term) :
    settlement (π • s) (π • goal) = (settlement s goal).renumber π := by
  cases goal with
  | var v => rfl
  | num n => rfl
  | app g xs =>
    rw [Term.smul_app]
    cases g with
    | name f => exact congrArg Settlement.lookup (Term.smul_app π _ xs).symm
    | op op =>
      by_cases hinner : ∃ inner, op = .notProvable ∧ xs = [inner]
      · obtain ⟨inner, rfl, rfl⟩ := hinner
        rfl
      · have hmap : ¬∃ inner, op = .notProvable ∧ xs.map (π • ·) = [inner] := by
          rintro ⟨inner, rfl, h⟩
          obtain ⟨x, rfl, -⟩ := List.map_eq_singleton_iff.mp h
          exact hinner ⟨x, rfl, rfl⟩
        rw [settlement_builtin hmap, settlement_builtin hinner, ← Operator.renumber_evaluate,
          ← Term.smul_app, Term.arithLiteral?_smul]
        cases op.evaluate xs s with
        | lookup => cases (Term.app (.op op) xs).arithLiteral? <;> rfl
        | _ => rfl

def Settlement.IsBelow (b : ℕ) : Settlement → Prop
  | unsolved => True
  | evaluated u => Below b u
  | lookup literal => Below b literal
  | absent inner => Below b inner

theorem isBelow_of_settlement {b : ℕ} {s : Substitution} (hs : Below b s) {goal : Term}
    (hgoal : Below b goal) {x : Settlement} (h : settlement s goal = x) : x.IsBelow b := by
  have hsame (π : Perm ℕ) (hπ : ∀ i < b, π i = i) : x.renumber π = x := by
    rw [← h, ← settlement_smul, Below.iff_forall.mp hs π hπ, Below.iff_forall.mp hgoal π hπ]
  cases x with
  | unsolved => trivial
  | evaluated u => exact Below.iff_forall.mpr fun π hπ ↦ Settlement.evaluated.inj (hsame π hπ)
  | lookup literal => exact Below.iff_forall.mpr fun π hπ ↦ Settlement.lookup.inj (hsame π hπ)
  | absent inner => exact Below.iff_forall.mpr fun π hπ ↦ Settlement.absent.inj (hsame π hπ)

theorem Term.negationsAsFailure_smul (π : Perm ℕ) (goal : Term) :
    (π • goal).negationsAsFailure = goal.negationsAsFailure := by
  fun_induction Term.negationsAsFailure goal with
  | case1 inner ih =>
    rw [smul_app]
    exact congrArg (· + 1) ih
  | case2 goal hne =>
    rw [negationsAsFailure]
    intro inner h
    have hgoal : goal = .app (.op .notProvable) [π⁻¹ • inner] := by
      rw [← inv_smul_smul π goal, h, smul_app]
      rfl
    exact hne _ hgoal

theorem apply_of_settlement_absent {s : Substitution} {goal inner : Term}
    (h : settlement s goal = .absent inner) (hgoal : s.apply goal = goal) :
    s.apply inner = inner := by
  rw [eq_of_settlement_absent h, Substitution.apply_app] at hgoal
  exact (List.cons.inj (Term.app.inj hgoal).2).1

namespace Theory

variable {t : Theory} {π : Perm ℕ} {b n : ℕ}

/-- Something found is something computed, renumbered by a permutation that is given for the numbers
below a bound. The found one uses no number from another bound on. -/
def Agrees {α : Type} [MulAction (Perm ℕ) α] (view : α → α) (π : Perm ℕ) (b n : ℕ) (a : α)
    (x : α × ℕ) : Prop :=
  b ≤ x.2 ∧ Below x.2 x.1 ∧
    ∃ ρ : Perm ℕ, (∀ i < b, ρ i = π i) ∧ (∀ i < x.2, ρ i < n) ∧ view a = ρ • x.1

section Agrees

variable {α : Type} [MulAction (Perm ℕ) α] {view : α → α}

theorem lasting_agrees : Flow.Lasting (Agrees view π b) := by
  rintro n m a x hnm ⟨hb, hx, ρ, hρ, hlt, ha⟩
  exact ⟨hb, hx, ρ, hρ, fun i hi ↦ Nat.lt_of_lt_of_le (hlt i hi) hnm, ha⟩

theorem Agrees.of_extension {ρ : Perm ℕ} {c : ℕ} {a : α} {x : α × ℕ} (h : Agrees view ρ c n a x)
    (hbc : b ≤ c) (hρ : ∀ i < b, ρ i = π i) : Agrees view π b n a x := by
  obtain ⟨hc, hx, σ, hσ, hlt, ha⟩ := h
  exact ⟨hbc.trans hc, hx, σ, fun i hi ↦ (hσ i (hi.trans_le hbc)).trans (hρ i hi), hlt, ha⟩

end Agrees

/-- Arguments under any bindings are found as they are computed, if the permutation is extended for
these bindings. -/
def Tracks (found : Substitution → Term → Flow Argument)
    (computed : Substitution → Term → ℕ → List (Argument × ℕ)) (π : Perm ℕ) (b : ℕ) : Prop :=
  ∀ (ρ : Perm ℕ) (c n : ℕ) (u : Substitution) (e : Term), b ≤ c → (∀ i < b, ρ i = π i) →
    (∀ i < c, ρ i < n) → Below c u → Below c e → u.Acyclic →
    (found (ρ • u) (ρ • e)).Follows (Agrees Argument.form ρ c) n (computed u e c)

theorem lists_concat (arguments : Substitution → Term → Flow Argument) (es : List Term) (e : Term)
    (l : ArgumentList) : lists arguments (es ++ [e]) l =
      (lists arguments es l).bind fun l' ↦
        (arguments l'.substitution e).bind fun a ↦ .pure (l'.push a) := by
  induction es generalizing l with
  | nil => exact (Flow.pure_bind l _).symm
  | cons e' es ih =>
    rw [List.cons_append, lists, lists, Flow.bind_assoc]
    congr 1
    funext a
    exact ih (l.push a)

theorem Agrees.push {ρ : Perm ℕ} {l : ArgumentList} {x : ArgumentList × ℕ} {a : Argument}
    {y : Argument × ℕ} (hx : Below x.2 x.1) (hb : b ≤ x.2) (hρ : ∀ i < b, ρ i = π i)
    (hl : l.form = ρ • x.1) (ha : Agrees Argument.form ρ x.2 n a y) :
    Agrees ArgumentList.form π b n (l.push a) (x.1.push y.1, y.2) := by
  obtain ⟨hc, hy, σ, hσ, hlt, ha⟩ := ha
  refine ⟨hb.trans hc, ?_, σ, fun i hi ↦ ?_, hlt, ?_⟩
  · refine Below.iff_forall.mpr fun τ hτ ↦ ?_
    rw [ArgumentList.smul_push, Below.iff_forall.mp (hx.mono hc) τ hτ, Below.iff_forall.mp hy τ hτ]
  · exact (hσ i (hi.trans_le hb)).trans (hρ i hi)
  · rw [ArgumentList.form_push, ArgumentList.smul_push, hl, ha, hx.smul_eq hσ]

theorem lists_follows {found : Substitution → Term → Flow Argument}
    {computed : Substitution → Term → ℕ → List (Argument × ℕ)} (h : Tracks found computed π b)
    {p : Position} (hbuilt : ∀ u e n, ∀ x ∈ computed u e n, t.Built p u (u.apply e) x.1)
    (hπ : ∀ i < b, π i < n) {s : Substitution} (hs : Below b s) (hacyclic : s.Acyclic)
    {es : List Term} (hes : ∀ e ∈ es, Below b e) :
    (lists found (es.map (π • ·)) (.empty (π • s))).Follows (Agrees ArgumentList.form π b) n
      (allLists computed s b es) := by
  -- From the last literal on: its arguments are found under the bindings of a list for the others.
  induction es using List.reverseRecOn with
  | nil =>
    refine Flow.Follows.pure ⟨Nat.le_refl b, ?_, π, fun _ _ ↦ rfl, hπ, rfl⟩
    refine Below.iff_forall.mpr fun τ hτ ↦ ?_
    show ArgumentList.mk [] (τ • s) = .mk [] s
    rw [Below.iff_forall.mp hs τ hτ]
  | append_singleton es e ih =>
    rw [List.map_append, List.map_singleton, lists_concat, allLists_concat]
    refine (ih fun x hx ↦ hes x (List.mem_append_left _ hx)).bind lasting_agrees ?_
    rintro m l ⟨lx, c⟩ hnm ⟨hb, hx, ρ, hρ, hlt, hl⟩ hmem
    have he : Below b e := hes e (List.mem_append_right _ (.head _))
    have hsubstitution : l.substitution = ρ • lx.substitution := congrArg (·.substitution) hl
    have hbound : Below c lx.substitution := hx.map fun _ ↦ rfl
    have hlx : lx.substitution.Acyclic := (allLists_built hbuilt b es _ hmem).acyclic hacyclic
    have harguments := h ρ c m lx.substitution e hb hρ hlt hbound (he.mono hb) hlx
    show Flow.Follows _ m _ ((computed lx.substitution e c).map fun y ↦ (lx.push y.1, y.2))
    rw [hsubstitution, ← he.smul_eq hρ, List.map_eq_flatMap]
    refine harguments.bind lasting_agrees fun m' a y _ ha _ ↦ .pure ?_
    exact ha.push hx hb hρ hl

theorem Tracks.extend {found : Substitution → Term → Flow Argument}
    {computed : Substitution → Term → ℕ → List (Argument × ℕ)} (h : Tracks found computed π b)
    {ρ : Perm ℕ} {c : ℕ} (hbc : b ≤ c) (hρ : ∀ i < b, ρ i = π i) : Tracks found computed ρ c :=
  fun σ d n u e hcd hσ ↦ h σ d n u e (hbc.trans hcd) fun i hi ↦
    (hσ i (hi.trans_le hbc)).trans (hρ i hi)

theorem conclude_follows {p : Position} {r : Rule} (hr : Below b r) {l : ArgumentList}
    {x : ArgumentList × ℕ} (h : Agrees ArgumentList.form π b n l x) :
    (t.conclude (π • p) (π • r) l).Follows (Agrees Argument.form π b) n
      ((t.conclusion? p r x.1).map (·, x.2)).toList := by
  obtain ⟨hb, hx, ρ, hρ, hlt, hl⟩ := h
  have harguments : l.arguments.map Argument.form = x.1.arguments.map (ρ • ·) :=
    congrArg (·.arguments) hl
  have hstrength : t.valuation.strength (π • r) l.arguments =
      t.valuation.strength r x.1.arguments := by
    refine t.valuation.strength_congr rfl ?_
    have := congrArg (List.map Argument.strength) harguments
    simpa only [List.map_map, Function.comp_def, Argument.form_strength, Argument.smul_strength]
      using this
  rw [conclude, conclusion?, hstrength, Position.smul_threshold]
  split
  · refine fun i ↦ .pure ⟨hb, ?_, ρ, hρ, hlt, ?_⟩
    · refine Below.iff_forall.mpr fun τ hτ ↦ ?_
      have hlist := Below.iff_forall.mp hx τ hτ
      have hsubs : x.1.arguments.map (τ • ·) = x.1.arguments := congrArg (·.arguments) hlist
      have hbound : τ • x.1.substitution = x.1.substitution := congrArg (·.substitution) hlist
      rw [Argument.smul_mk, Below.iff_forall.mp (hr.mono hb) τ hτ, hsubs, hbound]
    · have hbound : l.substitution = ρ • x.1.substitution := congrArg (·.substitution) hl
      rw [Argument.form_mk, Argument.smul_mk, harguments, hbound, hr.smul_eq hρ]
      rfl
  · rfl

theorem conclusions_follow {found : Substitution → Term → Flow Argument}
    {computed : Substitution → Term → ℕ → List (Argument × ℕ)} (h : Tracks found computed π b)
    {p q : Position} (hbuilt : ∀ u e n, ∀ x ∈ computed u e n, t.Built q u (u.apply e) x.1)
    (hπ : ∀ i < b, π i < n) {s : Substitution} (hs : Below b s) (hacyclic : s.Acyclic) {r : Rule}
    (hr : Below b r) :
    ((lists found (π • r).antecedent (.empty (π • s))).bind (t.conclude (π • p) (π • r))).Follows
      (Agrees Argument.form π b) n
      ((allLists computed s b r.antecedent).filterMap fun (l, n) ↦
        (t.conclusion? p r l).map (·, n)) := by
  rw [Rule.smul_antecedent, List.filterMap_eq_flatMap_toList]
  refine (lists_follows h hbuilt hπ hs hacyclic (Rule.below_antecedent hr)).bind lasting_agrees ?_
  exact fun m l x _ hl _ ↦ conclude_follows hr hl

theorem allByRule_of_weak {computed : Substitution → Term → ℕ → List (Argument × ℕ)} {p : Position}
    {s : Substitution} {literal : Term} {r : Rule} (h : ¬r.degree.meets p.threshold = true) :
    t.allByRule computed p s literal b r = [] := by
  rw [allByRule]
  dsimp only
  split
  · refine List.filterMap_eq_nil_iff.mpr fun x _ ↦ ?_
    rw [conclusion?, if_neg]
    · rfl
    · exact fun hmeets ↦ h (Valuation.meets_degree hmeets)
  · rfl

theorem byRule_follows {below : Position → Substitution → Term → Flow Argument}
    {computed : Substitution → Term → ℕ → List (Argument × ℕ)} {p q : Position}
    {s : Substitution} {literal : Term}
    (h : Tracks (below (π • p.below literal (t.subThreshold p.threshold))) computed π b)
    (hbuilt : ∀ u e n, ∀ x ∈ computed u e n, t.Built q u (u.apply e) x.1)
    (hπ : ∀ i < b, π i < n) (hp : Below b p) (hs : Below b s) (hacyclic : s.Acyclic)
    (hliteral : Below b literal) (r : Rule) :
    (t.byRule below (π • p) (π • s) (π • literal) r).Follows (Agrees Argument.form π b) n
      (t.allByRule computed p s literal b r) := by
  rw [byRule, Position.smul_threshold]
  by_cases hdegree : r.degree.meets p.threshold = true
  · rw [if_neg (by simp [hdegree]), allByRule]
    intro m hm
    -- The instance found may have any new numbers; the permutation is chosen to lead to them.
    obtain ⟨ρ, hρ, hlt, hrenamed⟩ :=
      r.exists_smul_renameApart fun i hi ↦ (hπ i hi).trans_le hm
    have hle : b ≤ b + r.allVars.length := Nat.le_add_right b _
    have hbelow := r.below_renameApart b
    have hunify : ρ • s.unify (r.renameApart b).consequent literal =
        (ρ • s).unify (ρ • r.renameApart b).consequent (ρ • literal) :=
      Substitution.smul_unify ρ s _ literal
    have hunified : Below (b + r.allVars.length) (s.unify (r.renameApart b).consequent literal) :=
      Substitution.below_unify (hs.mono hle) (Rule.below_consequent hbelow) (hliteral.mono hle)
    dsimp only
    rw [← hp.smul_eq hρ, ← hs.smul_eq hρ, ← hliteral.smul_eq hρ, ← hrenamed, ← hunify,
      Substitution.isConsistent_smul]
    by_cases hconsistent : (s.unify (r.renameApart b).consequent literal).isConsistent = true
    · simp only [hconsistent, Bool.not_true, Bool.false_eq_true, if_false, if_true]
      have hq := Position.below_below hp hliteral (t.subThreshold p.threshold)
      rw [← hq.smul_eq hρ] at h
      have hfollows := conclusions_follow (p := p) (h.extend hle hρ) hbuilt hlt hunified
        (hacyclic.unify _ _) hbelow
      exact hfollows.imp fun _ _ _ _ hx ↦ hx.of_extension hle hρ
    · simp only [hconsistent]
      rfl
  · rw [if_pos (by simp [hdegree])]
    exact allByRule_of_weak hdegree

theorem settle_follows {lookup attempt : Term → Flow Argument} {p : Position} {s : Substitution}
    {goal : Term} (hπ : ∀ i < b, π i < n) (hs : Below b s) (hgoal : Below b goal)
    (hlookup : ∀ literal, settlement s goal = .lookup literal →
      (lookup (π • literal)).Follows (Agrees Argument.form π b) n (t.lookupAll p s literal b))
    (hattempt : ∀ inner, settlement s goal = .absent inner →
      (attempt (π • inner)).Follows (Agrees Argument.form π b) n
        (t.allArguments (p.below goal 0) s inner b)) :
    (settle lookup attempt (π • p) (π • s) (π • goal)).Follows (Agrees Argument.form π b) n
      (t.allArguments p s goal b) := by
  have hevaluated {u : Substitution} (hu : Below b u) (m : ℕ) (hm : n ≤ m) :
      (Flow.evaluated (π • p) (π • goal) (π • u)).Follows (Agrees Argument.form π b) m
        [(evaluation p goal u, b)] := by
    refine fun i ↦ .pure ⟨Nat.le_refl b, ?_, π, fun _ _ ↦ rfl, fun i hi ↦ (hπ i hi).trans_le hm, ?_⟩
    · refine Below.iff_forall.mpr fun τ hτ ↦ ?_
      rw [evaluation, Argument.smul_mk, Rule.smul_evaluated, Below.iff_forall.mp hgoal τ hτ,
        Below.iff_forall.mp hu τ hτ]
      rfl
    · rw [Argument.form_mk, evaluation, Argument.smul_mk, Rule.smul_evaluated]
      rfl
  rw [settle_eq, allArguments_eq, settlement_smul]
  cases hsettlement : settlement s goal with
  | unsolved => rfl
  | evaluated u =>
    exact hevaluated (isBelow_of_settlement hs hgoal hsettlement) n (Nat.le_refl n)
  | lookup literal => exact hlookup literal hsettlement
  | absent inner =>
    exact (hattempt inner hsettlement).ifEmpty fun m hm ↦ hevaluated hs m hm

theorem beyond_follows {p : Position} (hp : Below b p) (hdepth : t.maxDepth < p.depth)
    (hπ : ∀ i < b, π i < n) {s : Substitution} (hs : Below b s) (k : ℕ) {goal : Term}
    (hk : goal.negationsAsFailure < k) (hgoal : Below b goal) (happlied : s.apply goal = goal) :
    (beyond k (π • p) (π • s) (π • goal)).Follows (Agrees Argument.form π b) n
      (t.allArguments p s goal b) := by
  -- Below the greatest depth only negations as failure are followed, and each step takes one off.
  induction k generalizing p goal with
  | zero => omega
  | succ k ih =>
    rw [beyond]
    refine settle_follows hπ hs hgoal (fun literal _ ↦ ?_) fun inner hinner ↦ ?_
    · rw [lookupAll, if_pos (.inl hdepth)]
      rfl
    · have hinnerApplied := apply_of_settlement_absent hinner happlied
      have hlt : inner.negationsAsFailure < k := by
        rw [eq_of_settlement_absent hinner, Term.negationsAsFailure] at hk
        omega
      rw [← Substitution.smul_apply, hinnerApplied, ← Position.smul_below]
      exact ih (Position.below_below hp hgoal 0) (Nat.lt_succ_of_lt hdepth) hlt
        (isBelow_of_settlement hs hgoal hinner) hinnerApplied

theorem tracks_of_follows (levels : ℕ) {q : Position} (hq : Below b q)
    (h : ∀ {ρ : Perm ℕ} {c n : ℕ} {u : Substitution} {e : Term}, Below c q → (∀ i < c, ρ i < n) →
      Below c u → u.Acyclic → Below c e → u.apply e = e →
      (t.solve levels (ρ • q) (ρ • u) (ρ • e)).Follows (Agrees Argument.form ρ c) n
        (t.allArguments q u e c)) :
    Tracks (fun u e ↦ t.solve levels (π • q) u (u.apply e))
      (fun u e n ↦ t.allArguments q u (u.apply e) n) π b := by
  intro ρ c n u e hbc hρ hlt hu he hacyclic
  dsimp only
  rw [← hq.smul_eq hρ, ← Substitution.smul_apply]
  exact h (hq.mono hbc) hlt hu hacyclic (Substitution.below_apply hu he)
    (Substitution.apply_idem hacyclic e)

/-- The search for a goal follows the computation, whatever the permutation that leads from the
numbers of the one to those of the other. -/
theorem solve_follows {levels : ℕ} {p : Position} (hp : Below b p)
    (hlevels : levels + p.depth = t.maxDepth + 1) (hπ : ∀ i < b, π i < n) {s : Substitution}
    (hs : Below b s) (hacyclic : s.Acyclic) {goal : Term} (hgoal : Below b goal)
    (happlied : s.apply goal = goal) :
    (t.solve levels (π • p) (π • s) (π • goal)).Follows (Agrees Argument.form π b) n
      (t.allArguments p s goal b) := by
  -- Below a rule, the permutation is the one that leads to the numbers of the instance found.
  induction levels generalizing π b n p s goal with
  | zero =>
    refine beyond_follows hp (by omega) hπ hs _ ?_ hgoal happlied
    rw [Term.negationsAsFailure_smul]
    exact Nat.lt_succ_self _
  | succ levels ih =>
    refine settle_follows hπ hs hgoal (fun literal hliteral ↦ ?_) fun inner hinner ↦ ?_
    · have hbelow : Below b literal := isBelow_of_settlement hs hgoal hliteral
      rw [lookupAll, Position.repeats_smul, RuleStore.candidates_smul]
      by_cases hrepeats : p.repeats literal = true
      · simp only [hrepeats, or_true, if_true]
        rfl
      · rw [if_neg hrepeats, if_neg (not_or_intro (by omega) hrepeats)]
        have hq := Position.below_below hp hbelow (t.subThreshold p.threshold)
        refine Flow.Follows.concat fun r _ m hm ↦ byRule_follows (tracks_of_follows levels hq ?_)
          (fun u e n ↦ allArguments_built _ _ u n) (fun i hi ↦ (hπ i hi).trans_le hm) hp hs hacyclic
          hbelow r
        refine fun hq hlt hu hacyclic he happlied ↦ ih hq ?_ hlt hu hacyclic he happlied
        simp only [Position.below]
        omega
    · have hinnerApplied := apply_of_settlement_absent hinner happlied
      show Flow.Follows _ n
        (t.solve levels (π • p.below goal 0) (π • s) ((π • s).apply (π • inner))) _
      rw [← Substitution.smul_apply, hinnerApplied]
      refine ih (Position.below_below hp hgoal 0) ?_ hπ hs hacyclic
        (isBelow_of_settlement hs hgoal hinner) hinnerApplied
      simp only [Position.below]
      omega

theorem argumentsUnder_follows {m : Threshold} {s : Substitution} (hs : Below n s)
    (hacyclic : s.Acyclic) {e : Term} (he : Below n e) :
    (t.argumentsUnder s m e).Follows (Agrees Argument.form 1 n) n
      (t.allArguments (.root m) s (s.apply e) n) := by
  have hkeep : ∀ i < n, (1 : Perm ℕ) i < n := fun _ hi ↦ hi
  have h := solve_follows (Position.below_root n m) (Nat.add_zero (t.maxDepth + 1)) hkeep hs
    hacyclic (Substitution.below_apply hs he) (Substitution.apply_idem hacyclic e)
  simp only [one_smul] at h
  exact h

theorem listsUnder_follows {m : Threshold} {s : Substitution} (hs : Below n s)
    (hacyclic : s.Acyclic) {es : List Term} (hes : ∀ e ∈ es, Below n e) :
    (lists (fun u e ↦ t.argumentsUnder u m e) es (.empty s)).Follows
      (Agrees ArgumentList.form 1 n) n
      (allLists (fun u e c ↦ t.allArguments (.root m) u (u.apply e) c) s n es) := by
  have htracks : Tracks (fun u e ↦ t.argumentsUnder u m e)
      (fun u e c ↦ t.allArguments (.root m) u (u.apply e) c) 1 n :=
    tracks_of_follows (t.maxDepth + 1) (Position.below_root n m)
      fun hq hlt hu hacyclic he happlied ↦
        solve_follows hq (Nat.add_zero (t.maxDepth + 1)) hlt hu hacyclic he happlied
  have hkeep : ∀ i < n, (1 : Perm ℕ) i < n := fun _ hi ↦ hi
  have h := lists_follows htracks (fun u e n ↦ allArguments_built (.root m) _ u n) hkeep hs hacyclic
    hes
  simpa only [one_smul, List.map_id'] using h

theorem Agrees.alike {α : Type} [MulAction (Perm ℕ) α] {view : α → α} {m : ℕ} {a : α}
    {x : α × ℕ} (h : Agrees view 1 b m a x) (hview : ∀ a, view (view a) = view a)
    (hsmul : ∀ (π : Perm ℕ) a, view (π • a) = π • view a) : Alike view b a x.1 := by
  obtain ⟨-, -, ρ, hρ, -, ha⟩ := h
  exact ⟨ρ, hρ, by rw [← hsmul, ← ha, hview]⟩

theorem argumentsUnder_alike {m : Threshold} {s : Substitution} (hs : Below n s)
    (hacyclic : s.Acyclic) {e : Term} (he : Below n e) {supply : Supply}
    (hn : n ≤ supply.freeVariable) :
    List.Forall₂ (fun a x ↦ Alike Argument.form n a x.1) ((t.argumentsUnder s m e).toList supply).1
      (t.allArguments (.root m) s (s.apply e) n) :=
  ((argumentsUnder_follows hs hacyclic he).toList hn).imp fun _ _ ⟨_, h⟩ ↦
    h.alike Argument.form_form Argument.form_smul

theorem listsUnder_alike {m : Threshold} {s : Substitution} (hs : Below n s)
    (hacyclic : s.Acyclic) {es : List Term} (hes : ∀ e ∈ es, Below n e) {supply : Supply}
    (hn : n ≤ supply.freeVariable) :
    List.Forall₂ (fun l x ↦ Alike ArgumentList.form n l x.1)
      ((lists (fun u e ↦ t.argumentsUnder u m e) es (.empty s)).toList supply).1
      (allLists (fun u e c ↦ t.allArguments (.root m) u (u.apply e) c) s n es) :=
  ((listsUnder_follows hs hacyclic hes).toList hn).imp fun _ _ ⟨_, h⟩ ↦
    h.alike ArgumentList.form_form ArgumentList.form_smul

end Theory

end Argumentation
