import Argumentation.Proofs.Argument.Facts
import Argumentation.Proofs.Argument.Ground
import Argumentation.Proofs.Argument.Recursion
import Argumentation.Proofs.Argument.Soundness
import Argumentation.Proofs.Substitution.Acyclic
import Argumentation.Proofs.Term.Arithmetic
import Argumentation.Proofs.Term.Plain

namespace Argumentation

namespace Term

variable {t l r : Term} {n : Number} {op : Arith}

/-- Number literals and the operations on them, at any nesting. -/
inductive IsArithmetic : Term → Prop
  | num (n : Number) : IsArithmetic (num n)
  | apply (op : Arith) {l r : Term} : IsArithmetic l → IsArithmetic r →
      IsArithmetic (app (.op (.arith op)) [l, r])

inductive DividesByZero : Term → Prop
  | intro {l r : Term} {a b : Number} : l.evaluate = some a → r.evaluate = some b →
      Arith.dividesByZero a b = true → DividesByZero (app (.op (.arith .div)) [l, r])

inductive IsUndefined : Term → Prop
  | here {t : Term} : t.DividesByZero → IsUndefined t
  | left (op : Arith) {l : Term} (r : Term) : IsUndefined l →
      IsUndefined (app (.op (.arith op)) [l, r])
  | right (op : Arith) (l : Term) {r : Term} : IsUndefined r →
      IsUndefined (app (.op (.arith op)) [l, r])

theorem IsArithmetic.occurrences (h : t.IsArithmetic) : t.occurrences = [] := by
  induction h with
  | num n => rfl
  | apply op hl hr ihl ihr => simp [Term.occurrences, occurrencesAll, ihl, ihr]

theorem DividesByZero.evaluate (h : t.DividesByZero) : t.evaluate = none := by
  obtain ⟨hl, hr, hzero⟩ := h
  rw [evaluate_arith, hl, hr]
  exact Arith.compute_eq_none_iff.mpr ⟨rfl, hzero⟩

theorem dividesByZero_of_operands {a b : Number} (hl : l.evaluate = some a)
    (hr : r.evaluate = some b) (h : (app (.op (.arith op)) [l, r]).evaluate = none) :
    (app (.op (.arith op)) [l, r]).DividesByZero := by
  rw [evaluate_arith, hl, hr] at h
  obtain ⟨rfl, hzero⟩ := Arith.compute_eq_none_iff.mp h
  exact .intro hl hr hzero

theorem IsArithmetic.evaluate_eq_none_iff (h : t.IsArithmetic) :
    t.evaluate = none ↔ t.IsUndefined := by
  constructor
  · intro hnone
    induction h with
    | num n => cases hnone
    | @apply op l r hl hr ihl ihr =>
      cases hlv : l.evaluate with
      | none => exact .left op r (ihl hlv)
      | some a =>
        cases hrv : r.evaluate with
        | none => exact .right op l (ihr hrv)
        | some b => exact .here (dividesByZero_of_operands hlv hrv hnone)
  · intro hundefined
    clear h
    induction hundefined with
    | here h => exact h.evaluate
    | left op r _ ih => rw [evaluate_arith, ih, Option.bind_none]
    | right op l _ ih =>
      rw [evaluate_arith, ih]
      cases l.evaluate <;> rfl

theorem bind_eq_num_iff (h : t.occurrences = []) {f : Variable → Term} :
    t.bind f = num n ↔ t.evaluate = some n := by
  rw [← bind_var_eq_num_iff, bind_congr (g := var) (by simp [h])]

theorem evaluate_bind (h : t.occurrences = []) (f : Variable → Term) :
    (t.bind f).evaluate = t.evaluate := by
  refine Option.ext fun n ↦ ?_
  rw [← bind_var_eq_num_iff, bind_bind, bind_eq_num_iff h]

theorem fold_of_evaluate {g : Symbol} {xs : List Term} (h : (app g xs).evaluate = none) :
    fold g xs = app g xs := by
  rcases fold_eq_or g xs with hfold | ⟨n, hfold⟩
  · exact hfold
  · obtain ⟨op, a, b, rfl, rfl, hcompute⟩ := fold_eq_num_iff.mp hfold
    rw [evaluate_arith] at h
    exact absurd (hcompute.symm.trans h) nofun

end Term

section Settlement

variable {s : Substitution} {e l r literal : Term} {op : Arith}

theorem Operator.evaluate_arith (op : Arith) (l r : Term) (s : Substitution) :
    (Operator.arith op).evaluate [l, r] s =
      if (s.apply l).evaluate.isSome && (s.apply r).evaluate.isSome then .succeeded s
      else .lookup :=
  rfl

/-- Operands that bindings are applied to have values exactly where they had them before. -/
theorem settlement_arith (hl : l.occurrences = []) (hr : r.occurrences = [])
    (h : (Term.app (.op (.arith op)) [l, r]).evaluate = none) :
    settlement s (s.apply (.app (.op (.arith op)) [l, r])) =
      if l.evaluate.isSome && r.evaluate.isSome then .evaluated s
      else .lookup (s.apply (.app (.name (Operator.arith op).symbol) [l, r])) := by
  have hvalue {x : Term} (hx : x.occurrences = []) : (s.apply x).evaluate = x.evaluate :=
    Term.evaluate_bind hx _
  have happlied : (Term.app (.op (.arith op)) [s.apply l, s.apply r]).evaluate = none := by
    rwa [Term.evaluate_arith, hvalue hl, hvalue hr, ← Term.evaluate_arith]
  rw [Substitution.apply_app, Substitution.apply_app, List.map_cons, List.map_singleton,
    Term.fold_of_evaluate happlied, settlement_builtin (by simp), Operator.evaluate_arith,
    hvalue (s.apply_occurrences hl), hvalue (s.apply_occurrences hr), hvalue hl, hvalue hr]
  cases l.evaluate.isSome && r.evaluate.isSome <;> rfl

theorem settlement_of_dividesByZero (he : e.IsArithmetic) (h : e.DividesByZero) :
    settlement s (s.apply e) = .evaluated s := by
  have hnone := h.evaluate
  obtain ⟨hl, hr, -⟩ := h
  cases he with
  | apply _ hlarith hrarith =>
    rw [settlement_arith hlarith.occurrences hrarith.occurrences hnone, hl, hr]
    rfl

theorem settlement_of_not_dividesByZero (he : e.IsArithmetic) (hnone : e.evaluate = none)
    (h : ¬ e.DividesByZero) (hliteral : e.arithLiteral? = some literal) :
    settlement s (s.apply e) = .lookup (s.apply literal) := by
  cases he with
  | num n => cases hnone
  | @apply op l r hl hr =>
    obtain rfl := Option.some.inj hliteral
    rw [settlement_arith hl.occurrences hr.occurrences hnone]
    refine if_neg fun hvalues ↦ h ?_
    obtain ⟨hlv, hrv⟩ := Bool.and_eq_true_iff.mp hvalues
    obtain ⟨a, ha⟩ := Option.isSome_iff_exists.mp hlv
    obtain ⟨b, hb⟩ := Option.isSome_iff_exists.mp hrv
    exact Term.dividesByZero_of_operands ha hb hnone

end Settlement

namespace Theory

variable {t : Theory} {s : Substitution} {m : Threshold} {e literal : Term}

def IsEvaluation (goal : Term) (a : Argument) : Prop :=
  a.rule = .evaluated goal ∧ a.isFactual = true

theorem toList_of_evaluated (h : settlement s (s.apply e) = .evaluated s) (supply : Supply) :
    ∃ a, ((t.argumentsUnder s m e).toList supply).1 = [a] ∧ IsEvaluation (s.apply e) a := by
  rw [argumentsUnder, solve, settle_eq, h]
  exact ⟨_, rfl, rfl, rfl⟩

theorem rule_mem_of_literal (hliteral : literal.isLiteral = true) (supply : Supply) :
    ∀ a ∈ ((t.argumentsUnder s m literal).toList supply).1,
      ∃ r ∈ t.store.rules, ∃ base, a.rule = r.renameApart base := by
  intro a ha
  obtain ⟨f, xs, happlied⟩ := Term.exists_of_isLiteral (s.apply_isLiteral hliteral)
  have hbuilt : t.Built (.root m) s (s.apply literal) a := (solve_built _ _ _ _).toList supply a ha
  rw [happlied] at hbuilt
  cases hbuilt with
  | evaluated id h => cases h
  | concluded id hlookup hr hunified hl => exact ⟨_, RuleStore.mem_of_mem_candidates hr, _, rfl⟩

/-- Looking a goal up as a literal is the same as asking for this literal. -/
theorem argumentsUnder_of_lookup (h : settlement s (s.apply e) = .lookup (s.apply literal))
    (hliteral : settlement s (s.apply literal) = .lookup (s.apply literal)) :
    t.argumentsUnder s m e = t.argumentsUnder s m literal := by
  rw [argumentsUnder, argumentsUnder, solve, solve, settle_eq, settle_eq, h, hliteral]

/-- Arithmetic over number literals has no value just where it divides by zero somewhere. With a
value it holds by evaluation, in exactly one way, and so it does without one where the division is
the goal itself. In all other cases it is looked up as an ordinary literal, and only stored rules
conclude it. -/
theorem arithmetic_answered (t : Theory) (s : Substitution) (m : Threshold) (he : e.IsArithmetic)
    (supply : Supply) :
    let answers := ((t.argumentsUnder s m e).toList supply).1
    (e.evaluate = none ↔ e.IsUndefined) ∧
    (∀ n, e.evaluate = some n → ∃ a, answers = [a] ∧ IsEvaluation (.num n) a) ∧
    (e.DividesByZero → ∃ a, answers = [a] ∧ IsEvaluation (s.apply e) a) ∧
    (e.evaluate = none → ¬ e.DividesByZero →
      (∃ literal, e.arithLiteral? = some literal ∧
        t.argumentsUnder s m e = t.argumentsUnder s m literal) ∧
      ∀ a ∈ answers, ∃ r ∈ t.store.rules, ∃ base, a.rule = r.renameApart base) := by
  refine ⟨he.evaluate_eq_none_iff, fun n hn ↦ ?_, fun h ↦ ?_, fun hnone h ↦ ?_⟩
  · have hfold : s.apply e = .num n := (Term.bind_eq_num_iff he.occurrences).mpr hn
    rw [← hfold]
    exact toList_of_evaluated (by rw [hfold, settlement]) supply
  · exact toList_of_evaluated (settlement_of_dividesByZero he h) supply
  · obtain ⟨literal, hliteral⟩ : ∃ literal, e.arithLiteral? = some literal := by
      cases he with
      | num n => cases hnone
      | apply op hl hr => exact ⟨_, rfl⟩
    have hname : literal.isLiteral = true := by
      obtain ⟨op, xs, -, rfl⟩ := Term.arithLiteral?_eq_some.mp hliteral
      rfl
    obtain ⟨f, xs, happlied⟩ := Term.exists_of_isLiteral (s.apply_isLiteral hname)
    have heq : t.argumentsUnder s m e = t.argumentsUnder s m literal :=
      argumentsUnder_of_lookup (settlement_of_not_dividesByZero he hnone h hliteral)
        (by rw [happlied, settlement])
    refine ⟨⟨literal, hliteral, heq⟩, ?_⟩
    rw [heq]
    exact rule_mem_of_literal hname supply

def sumsWithTwo : Theory :=
  ofRules .weakestLink [.plain (.literal "+" [.var ⟨"X", 1⟩, .num (.int 2)]) [] .half]

def quotient (a b : Int64) : Term :=
  .app (.op (.arith .div)) [.num (.int a), .num (.int b)]

theorem quotient_isArithmetic (a b : Int64) : (quotient a b).IsArithmetic :=
  .apply _ (.num _) (.num _)

theorem quotient_dividesByZero (a : Int64) : (quotient a 0).DividesByZero :=
  .intro rfl rfl rfl

/-- A division by zero is up to the rules inside a sum only. -/
theorem quotients_answered :
    let answers (e : Term) := ((sumsWithTwo.argumentsUnder .empty 0 e).toList ⟨2, 1⟩).1
    let sum : Term := .app (.op (.arith .add)) [quotient 1 0, .num (.int 2)]
    (∃ a, answers (quotient 6 3) = [a] ∧ IsEvaluation (.num (.int 2)) a) ∧
    (∃ a, answers (quotient 1 0) = [a] ∧ IsEvaluation (quotient 1 0) a) ∧
    sum.IsUndefined ∧ (answers sum).length = 1 ∧
      ∀ a ∈ answers sum, ∃ r ∈ sumsWithTwo.store.rules, ∃ base, a.rule = r.renameApart base := by
  intro answers sum
  have hsum : sum.IsArithmetic := .apply _ (quotient_isArithmetic 1 0) (.num _)
  have hnot : ¬ sum.DividesByZero := by
    subst sum
    exact nofun
  obtain ⟨-, hvalue, -⟩ :=
    arithmetic_answered sumsWithTwo .empty 0 (quotient_isArithmetic 6 3) ⟨2, 1⟩
  obtain ⟨-, -, hzero, -⟩ :=
    arithmetic_answered sumsWithTwo .empty 0 (quotient_isArithmetic 1 0) ⟨2, 1⟩
  obtain ⟨hundefined, -, -, hrules⟩ := arithmetic_answered sumsWithTwo .empty 0 hsum ⟨2, 1⟩
  exact ⟨hvalue _ rfl, hzero (quotient_dividesByZero 1), hundefined.mp rfl, by decide +kernel,
    (hrules rfl hnot).2⟩

/-- Without any rules, one divided by zero still holds. -/
theorem undefined_quotient_holds :
    let t := ofRules .weakestLink []
    (quotient 1 0).IsArithmetic ∧ (quotient 1 0).evaluate = none ∧ t.store.rules = [] ∧
      ¬ ∀ a ∈ ((t.arguments 0 (quotient 1 0)).toList ⟨1, 1⟩).1,
        ∃ r ∈ t.store.rules, ∃ base, a.rule = r.renameApart base := by
  intro t
  refine ⟨quotient_isArithmetic 1 0, rfl, rfl, fun h ↦ ?_⟩
  obtain ⟨r, hr, -⟩ := h _ (.head _)
  cases hr

end Theory

end Argumentation
