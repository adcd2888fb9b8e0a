import Argumentation.Proofs.Argument.Soundness
import Argumentation.Proofs.Dialogue.Memory
import Argumentation.Proofs.Substitution.Termination

namespace Argumentation

/-- Whether a term is an arithmetic operator applied to arguments. -/
def Term.isArithmetic : Term → Bool
  | .app g _ => g.isArith
  | _ => false

namespace Substitution

variable {s u : Substitution}

theorem isArithmetic_walk (hs : s.Acyclic) {e : Term} (h : (s.apply e).isArithmetic = true) :
    (s.walk e).isArithmetic = true := by
  rw [← apply_walk hs] at h
  cases hwalk : s.walk e with
  | var v =>
    rw [hwalk, s.apply_of_unbound (hs.get?_of_walk hwalk)] at h
    cases h
  | num n =>
    rw [hwalk] at h
    cases h
  | app g xs =>
    cases harith : g.isArith with
    | true => exact harith
    | false =>
      rw [hwalk, apply_app, Term.fold_of_not_isArith harith] at h
      rw [show (Term.app g (xs.map s.apply)).isArithmetic = g.isArith from rfl, harith] at h
      cases h

/-- What a term stands for is no arithmetic as long as it is none in the end. -/
theorem isArithmetic_apply (hu : u.Acyclic) (h : u.Extends s) {e : Term}
    (he : (u.walk e).isArithmetic = false) : (s.apply e).isArithmetic = false := by
  rw [← Bool.not_eq_true]
  intro harithmetic
  have hwalk := isArithmetic_walk (hu.of_extends h) harithmetic
  rw [← walk_walk_of_extends hu h] at he
  cases hs : s.walk e with
  | var v =>
    rw [hs] at hwalk
    cases hwalk
  | num n =>
    rw [hs] at hwalk
    cases hwalk
  | app g xs =>
    rw [hs] at hwalk he
    rw [show u.walk (.app g xs) = .app g xs from rfl, hwalk] at he
    cases he

end Substitution

/-- Terms that agree, and that are equal unless there are doubles in both. -/
def Term.Matches (t u : Term) : Prop :=
  t.Agrees u ∧ (t.isExact = true ∨ u.isExact = true → t = u)

theorem Term.Agrees.matches {t u : Term} (h : t.Agrees u) : t.Matches u :=
  ⟨h, h.eq_of_isExact⟩

/-- How an argument supports a literal under bindings that extend its own ones: it claims the
literal under its own bindings, so that literal and claim match under the others too; and the claim
is the literal under these itself if they bind no variable of it. -/
structure Argument.Claims (σ : Substitution) (a : Argument) (e : Term) : Prop where
  own : a.claim.Matches (a.substitution.apply e)
  under : (σ.apply a.claim).Matches (σ.apply e)
  settled : (∀ v ∈ a.claim.occurrences, σ.get? v = none) → a.claim.Matches (σ.apply e)

namespace Theory

variable {t : Theory} {p : Position} {s σ : Substitution}

theorem LookedUpAs.eq_of_not_isArithmetic {goal literal : Term} (h : LookedUpAs goal literal)
    (hgoal : goal.isArithmetic = false) : literal = goal := by
  cases h with
  | name f xs => rfl
  | arith h =>
    obtain ⟨op, xs, rfl, rfl⟩ := Term.arithLiteral?_eq_some.mp h
    cases hgoal

theorem Built.claim_agrees {goal : Term} {a : Argument} (h : t.Built p s goal a) (hs : s.Acyclic)
    (hgoal : goal.isArithmetic = false) : a.claim.Agrees (a.substitution.apply goal) := by
  cases h with
  | evaluated id h => exact .refl _
  | @concluded _ _ _ _ r base l id hliteral hr hunified hl =>
    rw [hliteral.eq_of_not_isArithmetic hgoal] at hunified hl
    have hacyclic := hl.acyclic (hs.unify _ _)
    have hunify := Substitution.agrees_unify hs hunified
    have happly := Substitution.apply_apply_of_extends hacyclic hl.extends
    show (l.substitution.apply (r.renameApart base).consequent).Agrees (l.substitution.apply goal)
    rw [← happly, ← happly goal]
    exact hunify.bind _

theorem Built.claims {e : Term} {a : Argument} (h : t.Built p s (s.apply e) a) (hs : s.Acyclic)
    (hσ : σ.Acyclic) (hext : σ.Extends a.substitution) (he : (σ.walk e).isArithmetic = false) :
    a.Claims σ e := by
  have hacyclic := h.acyclic hs
  have hgoal := Substitution.isArithmetic_apply hσ (hext.trans h.extends) he
  have hown : a.claim.Agrees (a.substitution.apply e) := by
    rw [← Substitution.apply_apply_of_extends hacyclic h.extends e]
    exact h.claim_agrees hs hgoal
  have hunder : (σ.apply a.claim).Agrees (σ.apply e) := by
    rw [← Substitution.apply_apply_of_extends hσ hext e]
    exact hown.bind _
  refine ⟨hown.matches, hunder.matches, fun hunbound ↦ ?_⟩
  -- A claim without bound variables stays as it is.
  have hclaim : σ.apply a.claim = a.claim := by
    refine Eq.trans (Term.bind_congr fun v hv ↦ ?_) (Substitution.apply_idem hacyclic _)
    have hnone : a.substitution.get? v = none := by
      cases hget : a.substitution.get? v with
      | none => rfl
      | some t =>
        have hbound := hunbound v hv
        rw [hext v t hget] at hbound
        cases hbound
    exact (σ.apply_of_unbound (hunbound v hv)).trans (a.substitution.apply_of_unbound hnone).symm
  rw [hclaim] at hunder
  exact hunder.matches

theorem BuiltList.claims {es : List Term} {l : ArgumentList} :
    t.BuiltList p s es l → s.Acyclic → σ.Acyclic → σ.Extends l.substitution →
      List.Forall₂ (fun a e ↦ (σ.walk e).isArithmetic = false → a.Claims σ e) l.arguments es
  | .empty _ _, _, _, _ => .nil
  | .push hl ha, hs, hσ, hext => by
    have hlist := hl.claims hs hσ (hext.trans ha.extends)
    exact List.rel_append hlist (.cons (ha.claims (hl.acyclic hs) hσ hext) .nil)

end Theory

section Visits

variable {α β : Type} {P : α → Prop} {Q : β → Prop}

theorem Flow.All.visit {flow : Flow α} (hflow : flow.All P) {f : α → Search β}
    (hf : ∀ a σ b τ, P a → f a σ = some (b, τ) → Q b) {σ τ : Session} {bs : List β}
    (h : flow.visit f σ = some (bs, τ)) : ∀ b ∈ bs, Q b := by
  induction flow generalizing σ τ bs with
  | done =>
    rw [(Search.pure_eq_some.mp h).1.symm]
    simp
  | yield a rest ih =>
    obtain ⟨b, ρ, hb, h⟩ := Search.bind_eq_some.mp h
    obtain ⟨bs', υ, hbs, h⟩ := Search.bind_eq_some.mp h
    obtain ⟨rfl, -⟩ := Search.pure_eq_some.mp h
    exact List.forall_mem_cons.mpr ⟨hf a σ b ρ hflow.1 hb, ih () hflow.2 hbs⟩
  | takeVariables n next ih => exact ih _ (hflow _) h
  | takeArgument next ih => exact ih _ (hflow _) h

end Visits

namespace Theory

/-- In every list of arguments for literals, each argument supports its literal under the bindings
of the list, unless the literal stands for arithmetic; and for every answer to a query there are
bindings under which its expression is what was asked for, and its arguments support that. -/
theorem claims_supported :
    (∀ (t : Theory) (s : Substitution), s.Acyclic → ∀ levels p es supply,
      ∀ l ∈ ((lists (fun u e ↦ t.solve levels p u (u.apply e)) es (.empty s)).toList supply).1,
        List.Forall₂ (fun a e ↦ (l.substitution.walk e).isArithmetic = false →
          a.Claims l.substitution e) l.arguments es) ∧
    ∀ (q : Query) moves next outcome, q.run moves next = some outcome →
      ∀ answer ∈ outcome.answers, ∃ σ : Substitution, answer.expression = q.expression.map σ.apply ∧
        List.Forall₂ (fun a e ↦ (σ.walk e).isArithmetic = false → a.Claims σ e) answer.arguments
          q.expression := by
  have hlists (t : Theory) (s : Substitution) (hs : s.Acyclic) (levels : ℕ) (p : Position)
      (es : List Term) : (lists (fun u e ↦ t.solve levels p u (u.apply e)) es (.empty s)).All
        fun l ↦ List.Forall₂ (fun a e ↦ (l.substitution.walk e).isArithmetic = false →
          a.Claims l.substitution e) l.arguments es :=
    (lists_built (.empty p s) fun u e ↦ solve_built levels p u (u.apply e)).imp fun l hl ↦
      hl.claims hs (hl.acyclic hs) (.refl _)
  constructor
  · intro t s hs levels p es supply
    exact (hlists t s hs levels p es).toList supply
  · intro q moves next outcome hrun
    obtain ⟨⟨answers, σ⟩, hsearch, rfl⟩ := Option.map_eq_some_iff.mp hrun
    refine (hlists q.theory .empty Substitution.acyclic_empty _ _ q.expression).visit ?_ hsearch
    intro l σ answer τ hl hanswer
    obtain ⟨undefeated, ρ, -, h⟩ := Search.bind_eq_some.mp hanswer
    obtain ⟨rfl, -⟩ := Search.pure_eq_some.mp h
    exact ⟨l.substitution, rfl, hl⟩

def lateBinding : Theory :=
  ofRules .weakestLink [.plain (.literal "p" [.var ⟨"Y", 1⟩]) [] .one,
    .plain (.literal "q" [.const "a"]) [] .one]

def lateQuery : Query where
  expression := [.literal "p" [.var ⟨"X", 2⟩], .literal "q" [.var ⟨"X", 2⟩]]
  store := lateBinding.store
  settings := .default

theorem lateBinding_supported :
    ((lateBinding.argumentLists 0 lateQuery.expression).toList ⟨3, 1⟩).1.length = 1 ∧
    (∀ l ∈ ((lists (fun u e ↦ lateBinding.solve 10 (.root 0) u (u.apply e)) lateQuery.expression
        (.empty .empty)).toList ⟨3, 1⟩).1,
      List.Forall₂ (fun a e ↦ (l.substitution.walk e).isArithmetic = false →
        a.Claims l.substitution e) l.arguments lateQuery.expression) ∧
    ∃ outcome, lateQuery.run 10 3 = some outcome ∧ outcome.isAccepted = true ∧
      ∀ answer ∈ outcome.answers, ∃ σ : Substitution,
        answer.expression = lateQuery.expression.map σ.apply ∧
          List.Forall₂ (fun a e ↦ (σ.walk e).isArithmetic = false → a.Claims σ e) answer.arguments
            lateQuery.expression := by
  have hlists := claims_supported.1 lateBinding .empty Substitution.acyclic_empty 10 (.root 0)
    lateQuery.expression ⟨3, 1⟩
  have haccepted : (lateQuery.run 10 3).any Outcome.isAccepted = true := by decide +kernel
  refine ⟨by decide +kernel, hlists, ?_⟩
  cases hrun : lateQuery.run 10 3 with
  | none =>
    rw [hrun] at haccepted
    cases haccepted
  | some outcome =>
    rw [hrun] at haccepted
    exact ⟨outcome, rfl, haccepted, claims_supported.2 lateQuery 10 3 outcome hrun⟩

/-- The claims of the answers, each beside the literal that it supports. -/
theorem lateBinding_texts :
    (((lateBinding.argumentLists 0 lateQuery.expression).toList ⟨3, 1⟩).1.map fun l ↦
      (l.arguments.map (·.claim.text), lateQuery.expression.map (l.substitution.apply · |>.text))) =
        [(["p(X)", "q(a)"], ["p(a)", "q(a)"])] ∧
    ((lateQuery.run 10 3).map fun o ↦ o.answers.map fun answer ↦
      (answer.arguments.map (·.claim.text), answer.expression.map Term.text)) =
        some [(["p(X)", "q(a)"], ["p(a)", "q(a)"])] := by
  constructor <;> decide +kernel

/-- A claim is not always the instance of its literal under the bindings of the whole list, neither
in a list nor in an answer. -/
theorem lateBinding_unsettled :
    (¬∀ (t : Theory) (es : List Term) supply,
      (∀ e ∈ es, e.isArithmetic = false ∧ e.isExact = true) →
      ∀ l ∈ ((t.argumentLists 0 es).toList supply).1,
        l.arguments.map Argument.claim = es.map l.substitution.apply) ∧
    ¬∀ (q : Query) moves next outcome,
      (∀ e ∈ q.expression, e.isArithmetic = false ∧ e.isExact = true) →
      q.run moves next = some outcome →
        ∀ answer ∈ outcome.answers, answer.expression = answer.arguments.map Argument.claim := by
  have hliterals : ∀ e ∈ lateQuery.expression, e.isArithmetic = false ∧ e.isExact = true := by
    decide
  constructor
  · intro h
    have htexts := lateBinding_texts.1
    have hclaims := h lateBinding lateQuery.expression ⟨3, 1⟩ hliterals
    generalize ((lateBinding.argumentLists 0 lateQuery.expression).toList ⟨3, 1⟩).1 = ls
      at htexts hclaims
    obtain ⟨l, rfl, hl⟩ := List.map_eq_singleton_iff.mp htexts
    have heq := congrArg (List.map Term.text) (hclaims l (by simp))
    obtain ⟨hclaim, hliteral⟩ := Prod.mk.inj hl
    rw [List.map_map, List.map_map] at heq
    have := hclaim.symm.trans (heq.trans hliteral)
    revert this
    decide
  · intro h
    have htexts := lateBinding_texts.2
    obtain ⟨outcome, hrun, houtcome⟩ := Option.map_eq_some_iff.mp htexts
    obtain ⟨answer, hanswers, hanswer⟩ := List.map_eq_singleton_iff.mp houtcome
    have heq := congrArg (List.map Term.text)
      (h lateQuery 10 3 outcome hliterals hrun answer (by simp [hanswers]))
    obtain ⟨hclaim, hliteral⟩ := Prod.mk.inj hanswer
    rw [List.map_map] at heq
    have := hliteral.symm.trans (heq.trans hclaim)
    revert this
    decide

end Theory

end Argumentation
