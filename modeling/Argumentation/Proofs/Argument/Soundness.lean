import Argumentation.Engine
import Argumentation.Proofs.Argument.Built
import Argumentation.Proofs.Argument.Denials
import Mathlib.Data.Set.Function

namespace Argumentation

/-- Whether all rules conclude and presuppose terms without doubles and arithmetic operators. -/
def RuleStore.IsSymbolic (s : RuleStore) : Prop :=
  ∀ r ∈ s.rules, r.consequent.isSymbolic = true ∧ ∀ e ∈ r.antecedent, e.isSymbolic = true

namespace Argument

/-- A leaf for a number, for a goal under negation as failure, or for a built-in goal that was
evaluated with success. -/
def IsEvaluated (node : Argument) : Prop :=
  node.subs = [] ∧ ∃ goal, node.rule = .evaluated goal ∧
    ((∃ n, goal = .num n) ∨ (∃ inner, goal = .app (.op .notProvable) [inner]) ∨
      ∃ op args s, goal = .app (.op op) args ∧ op.evaluate args s = .succeeded node.substitution)

/-- A variant of a stored rule with one sub-argument for each literal, in order, one level deeper,
that claims the literal under the given bindings. -/
def IsInstance (store : RuleStore) (σ : Substitution) (node : Argument) : Prop :=
  ∃ r, store.rule? node.rule.id = some r ∧
    (∃ f : Variable → Variable, Set.InjOn f {v | v ∈ r.allVars} ∧ node.rule = r.rename f) ∧
    List.Forall₂ (fun sub e ↦ sub.depth = node.depth + 1 ∧ σ.apply sub.claim = σ.apply e)
      node.subs node.rule.antecedent

/-- Every node is evaluated or an instance, under the given bindings. -/
def IsGrounded (store : RuleStore) (σ : Substitution) (a : Argument) : Prop :=
  ∀ node ∈ a.subtree, node.IsEvaluated ∨ node.IsInstance store σ

end Argument

namespace Substitution

structure Regular (s : Substitution) : Prop where
  acyclic : s.Acyclic
  consistent : s.isConsistent = true
  symbolic : s.ConsistsOf (!·.isArith) Number.isInt

variable {s u : Substitution}

theorem regular_empty : Regular .empty :=
  ⟨acyclic_empty, rfl, consistsOf_empty⟩

theorem Regular.isExact (hs : s.Regular) : s.IsExact :=
  fun v t hv ↦ Term.isExact_of_isSymbolic (hs.symbolic v t hv)

theorem Regular.apply_isSymbolic (hs : s.Regular) {t : Term} (ht : t.isSymbolic = true) :
    (s.apply t).isSymbolic = true :=
  hs.symbolic.apply (Term.foldsWithin_of_not_isArith fun g hg ↦ by simpa using hg) ht

theorem Regular.apply_apply (hu : u.Regular) (h : u.Extends s) (t : Term) :
    u.apply (s.apply t) = u.apply t :=
  apply_apply_of_extends hu.acyclic h t

theorem Regular.unify (hs : s.Regular) {l r : Term} (hl : l.isSymbolic = true)
    (hr : r.isSymbolic = true) (h : (s.unify l r).isConsistent = true) : (s.unify l r).Regular :=
  ⟨hs.acyclic.unify l r, h, hs.symbolic.unify hl hr⟩

theorem evaluate_isInt {t : Term} {n : Number} (ht : t.isSymbolic = true)
    (h : t.evaluate = some n) : n.isInt = true := by
  cases t with
  | var v => cases h
  | num m =>
    cases h
    exact ht
  | app g xs =>
    cases g with
    | name f => cases h
    | op op =>
      have harith := (Term.consistsOf_app.mp ht).1
      cases op <;> first | cases h | cases harith

theorem Regular.evaluate (hs : s.Regular) {op : Operator} {args : List Term}
    (hargs : ∀ x ∈ args, x.isSymbolic = true) (h : op.evaluate args s = .succeeded u) :
    u.Regular := by
  refine ⟨hs.acyclic.evaluate h, evaluate_isConsistent hs.consistent h, ?_⟩
  rcases Operator.evaluate_succeeded h with rfl | ⟨v, r, value, hxs, hvalue, rfl, hconsistent⟩
  · exact hs.symbolic
  · rcases add_num_cases hconsistent with heq | ⟨heq, -⟩
    · rw [heq]
      exact hs.symbolic
    · have hr : r ∈ args.map s.apply := by simp [hxs]
      obtain ⟨x, hx, rfl⟩ := List.mem_map.mp hr
      rw [heq]
      exact hs.symbolic.bound v (evaluate_isInt (hs.apply_isSymbolic (hargs x hx)) hvalue)

end Substitution

theorem Rule.exists_rename_renameApart (r : Rule) (base : ℕ) :
    ∃ f : Variable → Variable, Set.InjOn f {v | v ∈ r.allVars} ∧
      r.renameApart base = r.rename f := by
  refine ⟨_, fun v hv w hw h ↦ ?_, rfl⟩
  have hidx : r.allVars.idxOf v = r.allVars.idxOf w := Nat.add_left_cancel (Variable.mk.inj h).2
  exact (List.idxOf_inj hv).mp hidx

theorem Rule.consistsOf_renameApart {symbol : Symbol → Bool} {number : Number → Bool} {r : Rule}
    (hr : r.consequent.consistsOf symbol number = true ∧
      ∀ e ∈ r.antecedent, e.consistsOf symbol number = true) (base : ℕ) :
    (r.renameApart base).consequent.consistsOf symbol number = true ∧
      ∀ e ∈ (r.renameApart base).antecedent, e.consistsOf symbol number = true := by
  simp only [renameApart, rename, Term.renameAll_eq_map, List.forall_mem_map,
    Term.consistsOf_rename]
  exact hr

def Term.literal (functor : String) (args : List Term) : Term :=
  .app (.name functor) args

namespace Theory

open Argument Substitution

variable {t : Theory}

theorem Evaluates.regular {s u : Substitution} {goal : Term} (h : Evaluates s goal u)
    (hs : s.Regular) (hgoal : goal.isSymbolic = true) : u.Regular := by
  cases h with
  | number => exact hs
  | absent => exact hs
  | builtin h => exact hs.evaluate (Term.consistsOf_app.mp hgoal).2 h

theorem LookedUpAs.eq {goal literal : Term} (h : LookedUpAs goal literal)
    (hgoal : goal.isSymbolic = true) : literal = goal := by
  cases h with
  | name => rfl
  | arith h =>
    obtain ⟨op, xs, rfl, -⟩ := Term.arithLiteral?_eq_some.mp h
    cases (Term.consistsOf_app.mp hgoal).1

/-- What an argument for a goal is under all bindings that extend its own ones. -/
structure Sound (store : RuleStore) (goal : Term) (depth : ℕ) (a : Argument) : Prop where
  regular : a.substitution.Regular
  claim : a.claim = a.substitution.apply goal
  depth : a.depth = depth
  grounded : ∀ σ : Substitution, σ.Regular → σ.Extends a.substitution → a.IsGrounded store σ

/-- What a list of arguments for literals is under all bindings that extend its own ones. -/
structure ListSound (store : RuleStore) (es : List Term) (depth : ℕ) (l : ArgumentList) :
    Prop where
  regular : l.substitution.Regular
  supported : ∀ σ : Substitution, σ.Regular → σ.Extends l.substitution →
    List.Forall₂ (fun a e ↦ a.depth = depth ∧ σ.apply a.claim = σ.apply e) l.arguments es
  grounded : ∀ a ∈ l.arguments, ∀ σ : Substitution, σ.Regular → σ.Extends l.substitution →
    a.IsGrounded store σ

theorem Evaluates.sound {store : RuleStore} {p : Position} {s u : Substitution} {goal : Term}
    (h : Evaluates s goal u) (hs : s.Regular) (hgoal : goal.isSymbolic = true) (id : ArgumentId) :
    Sound store goal p.depth ⟨id, .evaluated goal, u, [], .one, p.depth⟩ := by
  refine ⟨h.regular hs hgoal, rfl, rfl, fun σ _ _ node hnode ↦ .inl ?_⟩
  rcases mem_subtree.mp hnode with rfl | ⟨b, hb, -⟩
  · refine ⟨rfl, goal, rfl, ?_⟩
    cases h with
    | number n => exact .inl ⟨n, rfl⟩
    | absent inner => exact .inr (.inl ⟨inner, rfl⟩)
    | builtin h => exact .inr (.inr ⟨_, _, s, rfl, h⟩)
  · cases hb

theorem ListSound.push {store : RuleStore} {es : List Term} {depth : ℕ} {l : ArgumentList}
    {e : Term} {a : Argument} (hl : ListSound store es depth l)
    (ha : Sound store (l.substitution.apply e) depth a)
    (hext : a.substitution.Extends l.substitution) :
    ListSound store (es ++ [e]) depth (l.push a) where
  regular := ha.regular
  supported σ hσ hσa := by
    have hlast : σ.apply a.claim = σ.apply e := by
      rw [ha.claim, hσ.apply_apply (s := a.substitution) hσa, hσ.apply_apply (hσa.trans hext)]
    exact List.rel_append (hl.supported σ hσ (hσa.trans hext)) (.cons ⟨ha.depth, hlast⟩ .nil)
  grounded b hb σ hσ hσa := by
    rcases List.mem_append.mp hb with hb | hb
    · exact hl.grounded b hb σ hσ (hσa.trans hext)
    · rw [List.mem_singleton.mp hb]
      exact ha.grounded σ hσ hσa

theorem ListSound.concluded {p : Position} {s : Substitution} {goal : Term} {r : Rule} {base : ℕ}
    {l : ArgumentList} (hr : t.store.rule? r.id = some r) (hs : s.Regular)
    (hgoal : goal.isSymbolic = true)
    (hconsequent : (r.renameApart base).consequent.isSymbolic = true)
    (hunified : (s.unify (r.renameApart base).consequent goal).isConsistent = true)
    (hext : l.substitution.Extends (s.unify (r.renameApart base).consequent goal))
    (hl : ListSound t.store (r.renameApart base).antecedent (p.depth + 1) l) (id : ArgumentId) :
    Sound t.store goal p.depth ⟨id, r.renameApart base, l.substitution, l.arguments,
      t.valuation.strength (r.renameApart base) l.arguments, p.depth⟩ := by
  refine ⟨hl.regular, ?_, rfl, fun σ hσ hσl node hnode ↦ ?_⟩
  · have hequal := apply_unify hs.acyclic hs.isExact (Term.isExact_of_isSymbolic hconsequent)
      (Term.isExact_of_isSymbolic hgoal) hunified
    rw [claim, ← hl.regular.apply_apply hext, hequal, hl.regular.apply_apply hext]
  · rcases mem_subtree.mp hnode with rfl | ⟨b, hb, hnode⟩
    · exact .inr ⟨r, hr, r.exists_rename_renameApart base, hl.supported σ hσ hσl⟩
    · exact hl.grounded b hb σ hσ hσl node hnode

mutual

theorem Built.sound (hstore : t.store.IsSymbolic) {p : Position} {s : Substitution} {goal : Term}
    {a : Argument} : t.Built p s goal a → s.Regular → goal.isSymbolic = true →
      Sound t.store goal p.depth a
  | .evaluated i h, hs, hgoal => h.sound hs hgoal i
  | @Built.concluded _ _ _ _ _ _ base _ i hliteral hr hunified hl, hs, hgoal => by
    obtain rfl := hliteral.eq hgoal
    have hrule := RuleStore.rule?_of_mem_candidates hr
    have hsymbolic := Rule.consistsOf_renameApart (hstore _ (RuleStore.mem_of_rule? hrule)) base
    have hu := hs.unify hsymbolic.1 hgoal hunified
    exact (hl.sound hstore hu hsymbolic.2).concluded hrule hs hgoal hsymbolic.1 hunified
      hl.extends i

theorem BuiltList.sound (hstore : t.store.IsSymbolic) {p : Position} {s : Substitution}
    {es : List Term} {l : ArgumentList} : t.BuiltList p s es l → s.Regular →
      (∀ e ∈ es, e.isSymbolic = true) → ListSound t.store es p.depth l
  | .empty _ _, hs, _ => ⟨hs, fun _ _ _ ↦ .nil, by simp [ArgumentList.empty]⟩
  | .push hl ha, hs, hes => by
    have hlist := hl.sound hstore hs fun e he ↦ hes e (List.mem_append_left _ he)
    have hlast := hes _ (List.mem_append_right _ (.head _))
    exact hlist.push (ha.sound hstore hlist.regular (hlist.regular.apply_isSymbolic hlast))
      ha.extends

end

/-- Over a store and for a goal without doubles and arithmetic, every argument has consistent
bindings and claims the goal under them, and under them each of its nodes is evaluated or an
instance of a stored rule whose literals its sub-arguments claim. -/
theorem arguments_grounded (hstore : t.store.IsSymbolic) (m : Threshold) {goal : Term}
    (hgoal : goal.isSymbolic = true) (supply : Supply) :
    ∀ a ∈ ((t.arguments m goal).toList supply).1, a.substitution.isConsistent = true ∧
      a.claim = a.substitution.apply goal ∧ a.IsGrounded t.store a.substitution := by
  intro a ha
  have hbuilt : t.Built (.root m) .empty (Substitution.empty.apply goal) a :=
    (solve_built _ _ _ _).toList supply a ha
  have hsound := hbuilt.sound hstore regular_empty (regular_empty.apply_isSymbolic hgoal)
  refine ⟨hsound.regular.consistent, ?_, hsound.grounded _ hsound.regular (.refl _)⟩
  rw [hsound.claim, hsound.regular.apply_apply hbuilt.extends]

def ofRules (valuation : Valuation) (rules : List Rule) : Theory :=
  ⟨(Engine.default.addAll rules).2.store, valuation, Settings.default.maxDepth⟩

def grandparents : Theory :=
  let x := Term.var ⟨"X", 1⟩
  let y := Term.var ⟨"Y", 2⟩
  let z := Term.var ⟨"Z", 3⟩
  ofRules .weakestLink [.plain (.literal "parent" [.const "ann", .const "bob"]) [] .one,
    .plain (.literal "parent" [.const "bob", .const "cid"]) [] .one,
    .plain (.literal "grandparent" [x, z]) [.literal "parent" [x, y], .literal "parent" [y, z],
      .app (.op .notIdentical) [x, z], .app (.op .notProvable) [.literal "parent" [x, z]]] .one]

def grandchild : Term :=
  .literal "grandparent" [.const "ann", .var ⟨"W", 4⟩]

theorem grandparents_grounded : grandparents.store.IsSymbolic ∧ grandchild.isSymbolic = true ∧
    (((grandparents.arguments 0 grandchild).toList ⟨5, 1⟩).1.map (·.subs.length)) = [4] ∧
    ∀ a ∈ ((grandparents.arguments 0 grandchild).toList ⟨5, 1⟩).1,
      a.substitution.isConsistent = true ∧ a.claim = a.substitution.apply grandchild ∧
        a.IsGrounded grandparents.store a.substitution := by
  have hstore : grandparents.store.IsSymbolic := by
    unfold RuleStore.IsSymbolic
    decide +kernel
  exact ⟨hstore, rfl, by decide +kernel, arguments_grounded hstore 0 rfl ⟨5, 1⟩⟩

end Theory

end Argumentation
