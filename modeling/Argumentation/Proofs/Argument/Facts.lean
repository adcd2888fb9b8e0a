import Argumentation.Proofs.Argument.Built
import Argumentation.Proofs.Argument.Derivation
import Argumentation.Proofs.Argument.Strength
import Argumentation.Proofs.Dialogue.Coherence
import Argumentation.Proofs.RuleStore.Changes
import Argumentation.Proofs.Substitution.Matching
import Argumentation.Proofs.Term.Composition
import Argumentation.Proofs.Term.Negation

namespace Argumentation

namespace Term

variable {t u : Term}

inductive Meets : Term → Term → Prop
  | left (v : Variable) (t : Term) : Meets (var v) t
  | right (t : Term) (v : Variable) : Meets t (var v)
  | num {m n : Number} : m.same n = true → Meets (num m) (num n)
  | app (g : Symbol) {xs ys : List Term} : List.Forall₂ Meets xs ys → Meets (app g xs) (app g ys)

theorem Resembles.meets (h : t.Resembles u) : t.Meets u := by
  induction t using Term.induction generalizing u with
  | var v => exact .left v u
  | num m =>
    cases h with
    | num h => exact .num h
  | app g xs ih =>
    cases h with
    | app g h => exact .app g (forall₂_imp h ih)

theorem exists_of_isLiteral (h : t.isLiteral = true) : ∃ f xs, t = app (.name f) xs := by
  revert h
  fun_cases isLiteral t <;> intro h
  · exact ⟨_, _, rfl⟩
  · cases h

theorem meets_of_same (h : t.same u = true) : t.Meets u :=
  Resembles.meets ((turns_of_same h).mono fun _ _ _ ↦ trivial)

theorem sameAll_iff_forall₂ {xs ys : List Term} :
    sameAll xs ys = true ↔ List.Forall₂ (fun x y ↦ x.same y = true) xs ys := by
  induction xs generalizing ys with
  | nil => cases ys <;> simp [sameAll]
  | cons x xs ih => cases ys <;> simp [sameAll, ih]

theorem same_of_meets_bind {f : Variable → Variable} (h : (t.rename f).Meets (t.bind var)) :
    (t.bind var).same t = true := by
  induction t using Term.induction with
  | var v => exact beq_self_eq_true v
  | num n =>
    cases h with
    | num h => exact h
  | app g xs ih =>
    rw [rename, renameAll_eq_map, bind, bindAll_eq_map] at h
    rw [bind, bindAll_eq_map]
    rcases fold_eq_or g (xs.map (bind var)) with hfold | ⟨n, hfold⟩
    · rw [hfold] at h ⊢
      cases h with
      | app g h =>
        rw [List.forall₂_map_left_iff, List.forall₂_map_right_iff, List.forall₂_same] at h
        rw [same, beq_self_eq_true, Bool.true_and, sameAll_iff_forall₂, List.forall₂_map_left_iff,
          List.forall₂_same]
        exact fun x hx ↦ ih x hx (h x hx)
    · rw [hfold] at h
      cases h

theorem Resembles.rename (h : t.Resembles u) (f : Variable → Variable) :
    (t.rename f).Resembles u := by
  induction t using Term.induction generalizing u with
  | var v =>
    cases h with
    | var => exact .var trivial
  | num m =>
    cases h with
    | num h => exact .num h
  | app g xs ih =>
    cases h with
    | app g h =>
      rw [Term.rename, renameAll_eq_map]
      refine .app g ?_
      rw [List.forall₂_map_left_iff]
      exact forall₂_imp h ih

end Term

namespace Substitution

variable {s u : Substitution} {es : List (Term × Term)} {t : Term}

theorem walk_of_not_isVariable (s : Substitution) (h : t.isVariable = false) : s.walk t = t := by
  cases t with
  | var v => cases h
  | num n => rfl
  | app g xs => rfl

/-- Terms meet if the ends of their chains do, since only variables lead anywhere. -/
theorem meets_of_walk (s : Substitution) {l r : Term} (h : (s.walk l).Meets (s.walk r)) :
    l.Meets r := by
  cases hl : l.isVariable with
  | true =>
    cases l with
    | var v => exact .left v r
    | _ => cases hl
  | false =>
    cases hr : r.isVariable with
    | true =>
      cases r with
      | var v => exact .right l v
      | _ => cases hr
    | false => rwa [s.walk_of_not_isVariable hl, s.walk_of_not_isVariable hr] at h

theorem Solves.meets (h : Solves es s u) (hu : u.isConsistent = true) :
    ∀ e ∈ es, e.1.Meets e.2 := by
  induction h with
  | nil s => simp
  | skip hc hrest _ =>
    rw [(hrest.extends hu).1] at hc
    cases hc
  | clash hrest _ =>
    have hc := (hrest.extends hu).1
    rw [not_isConsistent_clash] at hc
    cases hc
  | same hlr _ ih =>
    exact List.forall_mem_cons.mpr ⟨meets_of_walk _ (Term.meets_of_same hlr), ih hu⟩
  | @left s _ l r _ v hv _ ih =>
    refine List.forall_mem_cons.mpr ⟨s.meets_of_walk ?_, ih hu⟩
    rw [hv]
    exact .left v _
  | @right s _ l r _ v hv _ ih =>
    refine List.forall_mem_cons.mpr ⟨s.meets_of_walk ?_, ih hu⟩
    rw [hv]
    exact .right _ v
  | @arguments s _ l r _ g xs ys hl hr hlen _ ih =>
    obtain ⟨hargs, hes⟩ := List.forall_mem_append.mp (ih hu)
    refine List.forall_mem_cons.mpr ⟨s.meets_of_walk ?_, hes⟩
    rw [hl, hr]
    exact .app g (List.forall₂_iff_zip.mpr ⟨hlen, fun hxy ↦ hargs _ hxy⟩)

end Substitution

theorem Term.meets_of_unifies {t u : Term} (h : t.unifies u = true) : t.Meets u :=
  (Substitution.empty.solves_unify t u).meets h (t, u) (.head _)

/-- The consequent of a renamed rule unifies with the consequent asked for exactly if there is
nothing to fold and no NaN. -/
theorem Rule.unifies_renameApart_iff (r : Rule) (base : ℕ) :
    (r.renameApart base).consequent.unifies (Substitution.empty.apply r.consequent) = true ↔
      (Substitution.empty.apply r.consequent).same r.consequent = true := by
  have happly : Substitution.empty.apply r.consequent = r.consequent.bind .var := rfl
  rw [happly]
  constructor
  · exact fun h ↦ Term.same_of_meets_bind (Term.meets_of_unifies h)
  · intro h
    have hresembles : r.consequent.Resembles (r.consequent.bind .var) :=
      ((Term.turns_of_same h).mono fun _ _ _ ↦ trivial).symm
    exact Term.unifies_of_resembles (hresembles.rename _)

namespace RuleStore

variable {s : RuleStore}

/-- If all rules that are added conclude literals, all stored rules do, those that are generated
included. -/
theorem ReachableBy.consequent_isLiteral (h : s.ReachableBy (·.consequent.isLiteral = true)) :
    ∀ r ∈ s.rules, r.consequent.isLiteral = true := by
  suffices ∀ r ∈ s.rules, r.consequent.isLiteral = true ∧
      ∀ name, r.name = some name → name.isLiteral = true from fun r hr ↦ (this r hr).1
  refine h.forall_rules (fun {given r} id hgiven hsettled hname ↦ ⟨?_, hname⟩) ?_ ?_ ?_
  · rcases hsettled with rfl | ⟨-, n, rfl⟩
    · exact hgiven
    · exact hgiven
  · exact fun id hr hname ↦ ⟨hr.2 _ hname, fun _ hnone ↦ by cases hnone⟩
  · intro source c n id hc
    obtain ⟨-, -, i, e, head, negated, -, hhead, -, rfl⟩ := Rule.exists_of_mem_contrapositives hc
    obtain ⟨f, xs, -, rfl⟩ := Term.exists_of_negation?_eq_some hhead
    exact ⟨rfl, fun name hname ↦ by cases hname; rfl⟩
  · exact fun n hr _ ↦ ⟨hr.1, fun name hname ↦ by cases hname; rfl⟩

theorem Indexed.mem_candidates_apply (h : s.Indexed) {r : Rule} (hr : r ∈ s.rules)
    (hliteral : r.consequent.isLiteral = true) (u : Substitution) :
    r ∈ s.candidates (u.apply r.consequent) := by
  obtain ⟨f, xs, hconsequent⟩ := Term.exists_of_isLiteral hliteral
  have hpredicate : (u.apply r.consequent).predicate? = some ⟨f, (xs.map u.apply).length⟩ := by
    rw [hconsequent, Substitution.apply_app]
    rfl
  refine (h.candidates_perm hpredicate).mem_iff.mpr (List.mem_filter.mpr ⟨hr, ?_⟩)
  rw [hconsequent, List.length_map]
  exact decide_eq_true rfl

end RuleStore

namespace Theory

variable {t : Theory} {r : Rule} {supply : Supply}

theorem arguments_of_isLiteral (t : Theory) (m : Threshold) {e : Term}
    (he : e.isLiteral = true) : t.arguments m e =
      .concat (t.store.candidates (Substitution.empty.apply e))
        (t.byRule (fun q u x ↦ t.solve t.maxDepth q u (u.apply x)) (.root m) .empty
          (Substitution.empty.apply e)) := by
  obtain ⟨f, xs, rfl⟩ := Term.exists_of_isLiteral he
  rfl

/-- A fact gives an argument for each goal that its instance unifies with. -/
theorem byRule_has_of_isFact (hfact : r.isFact = true)
    {below : Position → Substitution → Term → Flow Argument} {s : Substitution} {goal : Term}
    (h : ∀ base, (s.unify (r.renameApart base).consequent goal).isConsistent = true) :
    (t.byRule below (.root 0) s goal r).Has (·.rule.id = r.id) := by
  rw [byRule, if_neg (by simp [Position.root, Degree.meets_zero])]
  intro base
  have hantecedent : (r.renameApart base).antecedent = [] := by
    rw [Rule.renameApart, Rule.rename, List.isEmpty_iff.mp hfact]
    rfl
  dsimp only
  rw [h base, if_neg (by decide), hantecedent, lists, Flow.pure_bind, conclude]
  split
  · exact fun id ↦ .pure rfl
  · exact absurd (Degree.meets_zero _) ‹_›

/-- An argument whose rule has the id of a stored one is concluded from an instance of it. -/
theorem unifies_of_built (hstore : t.store.Indexed) (hr : r ∈ t.store.rules) {p : Position}
    {goal : Term} (hgoal : goal.isLiteral = true) {a : Argument}
    (h : t.Built p .empty goal a) (hid : a.rule.id = r.id) :
    ∃ base, (r.renameApart base).consequent.unifies goal = true := by
  obtain ⟨f, xs, rfl⟩ := Term.exists_of_isLiteral hgoal
  cases h with
  | evaluated id h => cases h
  | @concluded _ _ _ literal x base l id hliteral hx hunified hl =>
    cases hliteral with
    | arith h => cases h
    | name =>
      obtain rfl : x = r :=
        hstore.eq_of_id (RuleStore.mem_of_mem_candidates hx) hr hid
      exact ⟨base, hunified⟩

/-- If all rules that are added conclude literals, asking for the consequent of a stored fact, of a
user or a hook, gives an argument by this fact exactly if applying bindings leaves the consequent as
it is: there is no arithmetic of numbers in it that is folded, and no NaN. -/
theorem fact_retrieved_iff (t : Theory)
    (hstore : t.store.ReachableBy (·.consequent.isLiteral = true)) (hr : r ∈ t.store.rules)
    (hfact : r.isFact = true) (supply : Supply) :
    (∃ a ∈ ((t.arguments 0 r.consequent).toList supply).1, a.rule.id = r.id) ↔
      (Substitution.empty.apply r.consequent).same r.consequent = true := by
  have hindexed := hstore.reachable.indexed
  have hliteral := hstore.consequent_isLiteral r hr
  constructor
  · rintro ⟨a, ha, hid⟩
    have hbuilt := (solve_built (t.maxDepth + 1) (.root 0) .empty _).toList supply a ha
    obtain ⟨base, hunifies⟩ :=
      unifies_of_built hindexed hr (Substitution.empty.apply_isLiteral hliteral) hbuilt hid
    exact (r.unifies_renameApart_iff base).mp hunifies
  · intro hsame
    rw [t.arguments_of_isLiteral 0 hliteral]
    have hcandidate := hindexed.mem_candidates_apply hr hliteral .empty
    exact (Flow.Has.concat hcandidate (byRule_has_of_isFact hfact fun base ↦
      (r.unifies_renameApart_iff base).mpr hsame)).toList supply

/-- Sums in two facts and in the name of a rule. Only that in the first one has a value. -/
def sums : Theory :=
  let x := Term.var ⟨"X", 1⟩
  let sum (a b : Term) := Term.app (.op (.arith .add)) [a, b]
  ofRules .weakestLink [.plain (.literal "p" [sum (.num (.int 1)) (.num (.int 2))]) [] .one,
    .plain (.literal "p" [sum x (.num (.int 2))]) [] .one,
    (Rule.plain (.const "q") [.const "r"] .half).withName
      (.literal "n" [sum (.num (.int 1)) x])]

theorem sums_reachableBy : sums.store.ReachableBy (·.consequent.isLiteral = true) :=
  Engine.addAll_reachableBy (.empty false)
    (by simp [Rule.plain, Rule.withName, Term.literal, Term.isLiteral])

theorem sums_retrieved : ∃ r ∈ sums.store.rules, r.origin.isHook = true ∧ r.isFact = true ∧
    ((∃ a ∈ ((sums.arguments 0 r.consequent).toList ⟨2, 1⟩).1, a.rule.id = r.id) ↔
      (Substitution.empty.apply r.consequent).same r.consequent = true) ∧
    ∃ a ∈ ((sums.arguments 0 r.consequent).toList ⟨2, 1⟩).1, a.rule.id = r.id := by
  have hcheck : sums.store.rules.any (fun r ↦ r.origin.isHook && r.isFact &&
      (Substitution.empty.apply r.consequent).same r.consequent) = true := by
    decide +kernel
  obtain ⟨r, hr, hcheck⟩ := List.any_eq_true.mp hcheck
  obtain ⟨hfact, hsame⟩ := Bool.and_eq_true_iff.mp hcheck
  obtain ⟨hhook, hfact⟩ := Bool.and_eq_true_iff.mp hfact
  have hiff := sums.fact_retrieved_iff sums_reachableBy hr hfact ⟨2, 1⟩
  exact ⟨r, hr, hhook, hfact, hiff, hiff.mpr hsame⟩

/-- The sum of two numbers is folded in the goal and not in the fact, which a variable finds. -/
theorem sums_missed : sums.store.ReachableBy (·.consequent.isLiteral = true) ∧
    ∃ r ∈ sums.store.rules, r.isFact = true ∧
      (((sums.arguments 0 (.literal "p" [.var ⟨"Y", 2⟩])).toList ⟨3, 1⟩).1.any fun a ↦
        a.rule.id == r.id && a.claim.same (Substitution.empty.apply r.consequent)) = true ∧
      ∀ a ∈ ((sums.arguments 0 r.consequent).toList ⟨2, 1⟩).1, a.rule.id ≠ r.id :=
  ⟨sums_reachableBy, by decide +kernel⟩

end Theory

end Argumentation
