import Argumentation.Argument.Construction
import Argumentation.Proofs.Argument.Drawing
import Argumentation.Proofs.Substitution.Evaluation

namespace Argumentation.Theory

inductive Evaluates (s : Substitution) : Term → Substitution → Prop
  | number (n : Number) : Evaluates s (.num n) s
  | absent (inner : Term) : Evaluates s (.app (.op .notProvable) [inner]) s
  | builtin {op : Operator} {args : List Term} {u : Substitution} :
      op.evaluate args s = .succeeded u → Evaluates s (.app (.op op) args) u

inductive LookedUpAs : Term → Term → Prop
  | name (f : String) (xs : List Term) : LookedUpAs (.app (.name f) xs) (.app (.name f) xs)
  | arith {goal literal : Term} : goal.arithLiteral? = some literal → LookedUpAs goal literal

mutual

/-- The arguments for a goal in a position, under the bindings that the goal is applied to. -/
inductive Built (t : Theory) : Position → Substitution → Term → Argument → Prop
  | evaluated {p : Position} {s u : Substitution} {goal : Term} (id : ArgumentId) :
      Evaluates s goal u → Built t p s goal ⟨id, .evaluated goal, u, [], .one, p.depth⟩
  | concluded {p : Position} {s : Substitution} {goal literal : Term} {r : Rule} {base : ℕ}
      {l : ArgumentList} (id : ArgumentId) : LookedUpAs goal literal →
      r ∈ t.store.candidates literal →
      (s.unify (r.renameApart base).consequent literal).isConsistent = true →
      BuiltList t (p.below literal (t.subThreshold p.threshold))
        (s.unify (r.renameApart base).consequent literal) (r.renameApart base).antecedent l →
      Built t p s goal ⟨id, r.renameApart base, l.substitution, l.arguments,
        t.valuation.strength (r.renameApart base) l.arguments, p.depth⟩

/-- The lists of arguments for literals, each under the bindings of those before it. -/
inductive BuiltList (t : Theory) : Position → Substitution → List Term → ArgumentList → Prop
  | empty (p : Position) (s : Substitution) : BuiltList t p s [] (.empty s)
  | push {p : Position} {s : Substitution} {es : List Term} {l : ArgumentList} {e : Term}
      {a : Argument} : BuiltList t p s es l → Built t p l.substitution (l.substitution.apply e) a →
      BuiltList t p s (es ++ [e]) (l.push a)

end

variable {t : Theory} {p : Position} {s : Substitution}

theorem lists_built {arguments : Substitution → Term → Flow Argument} {done es : List Term}
    {l : ArgumentList} (hl : t.BuiltList p s done l)
    (h : ∀ u e, (arguments u e).All (t.Built p u (u.apply e))) :
    (lists arguments es l).All (t.BuiltList p s (done ++ es)) := by
  induction es generalizing done l with
  | nil => simpa only [lists, List.append_nil] using Flow.All.pure hl
  | cons e es ih =>
    rw [lists, List.append_cons]
    exact (h _ e).bind fun a ha ↦ ih (hl.push ha)

theorem byRule_built {below : Position → Substitution → Term → Flow Argument} {goal literal : Term}
    (hliteral : LookedUpAs goal literal) {r : Rule} (hr : r ∈ t.store.candidates literal)
    (hbelow : ∀ q u e, (below q u e).All (t.Built q u (u.apply e))) :
    (t.byRule below p s literal r).All (t.Built p s goal) := by
  unfold byRule
  split
  · trivial
  intro base
  dsimp only
  split
  · trivial
  · rename_i hunified
    rw [Bool.not_eq_true, Bool.not_eq_false'] at hunified
    refine (lists_built (.empty _ _) (hbelow _)).bind fun l hl ↦ ?_
    rw [conclude]
    split
    · exact fun id ↦ .pure (.concluded id hliteral hr hunified hl)
    · trivial

theorem settle_built {lookup attempt : Term → Flow Argument} {goal : Term}
    (hlookup : ∀ literal, LookedUpAs goal literal → (lookup literal).All (t.Built p s goal)) :
    (settle lookup attempt p s goal).All (t.Built p s goal) := by
  have hevaluated {u : Substitution} (h : Evaluates s goal u) :
      (Flow.evaluated p goal u).All (t.Built p s goal) := fun id ↦ .pure (.evaluated id h)
  unfold settle
  split
  · trivial
  · exact hevaluated (.number _)
  · exact hlookup _ (.name _ _)
  · exact .ifEmpty (hevaluated (.absent _))
  · split
    · exact hevaluated (.builtin ‹_›)
    · trivial
    · split
      · exact hlookup _ (.arith ‹_›)
      · trivial

theorem beyond_built (n : ℕ) {goal : Term} : (beyond n p s goal).All (t.Built p s goal) := by
  cases n with
  | zero => trivial
  | succ n => exact settle_built fun _ _ ↦ trivial

theorem solve_built (levels : ℕ) (p : Position) (s : Substitution) (goal : Term) :
    (t.solve levels p s goal).All (t.Built p s goal) := by
  induction levels generalizing p s goal with
  | zero => exact beyond_built _
  | succ levels ih =>
    refine settle_built fun literal hliteral ↦ ?_
    split
    · trivial
    · exact .concat fun r hr ↦ byRule_built hliteral hr fun q u e ↦ ih q u (u.apply e)

theorem Evaluates.extends {goal : Term} {u : Substitution} (h : Evaluates s goal u) :
    u.Extends s := by
  cases h with
  | number => exact .refl s
  | absent => exact .refl s
  | builtin h => exact Substitution.evaluate_extends h

theorem Evaluates.acyclic {goal : Term} {u : Substitution} (h : Evaluates s goal u)
    (hs : s.Acyclic) : u.Acyclic := by
  cases h with
  | number => exact hs
  | absent => exact hs
  | builtin h => exact hs.evaluate h

mutual

theorem Built.acyclic {p : Position} {s : Substitution} {goal : Term} {a : Argument} :
    t.Built p s goal a → s.Acyclic → a.substitution.Acyclic
  | .evaluated _ h, hs => h.acyclic hs
  | .concluded _ _ _ _ hl, hs => hl.acyclic (hs.unify _ _)

theorem BuiltList.acyclic {p : Position} {s : Substitution} {es : List Term} {l : ArgumentList} :
    t.BuiltList p s es l → s.Acyclic → l.substitution.Acyclic
  | .empty _ _, hs => hs
  | .push hl ha, hs => ha.acyclic (hl.acyclic hs)

end

theorem Evaluates.isConsistent {goal : Term} {u : Substitution} (h : Evaluates s goal u)
    (hs : s.isConsistent = true) : u.isConsistent = true := by
  cases h with
  | number => exact hs
  | absent => exact hs
  | builtin h => exact Substitution.evaluate_isConsistent hs h

mutual

theorem Built.isConsistent {p : Position} {s : Substitution} {goal : Term} {a : Argument} :
    t.Built p s goal a → s.isConsistent = true → a.substitution.isConsistent = true
  | .evaluated _ h, hs => h.isConsistent hs
  | .concluded _ _ _ hunified hl, _ => hl.isConsistent hunified

theorem BuiltList.isConsistent {p : Position} {s : Substitution} {es : List Term}
    {l : ArgumentList} :
    t.BuiltList p s es l → s.isConsistent = true → l.substitution.isConsistent = true
  | .empty _ _, hs => hs
  | .push hl ha, hs => ha.isConsistent (hl.isConsistent hs)

end

mutual

theorem Built.extends {p : Position} {s : Substitution} {goal : Term} {a : Argument} :
    t.Built p s goal a → a.substitution.Extends s
  | .evaluated _ h => h.extends
  | .concluded _ _ _ hunified hl => hl.extends.trans (Substitution.unify_extends hunified)

theorem BuiltList.extends {p : Position} {s : Substitution} {es : List Term} {l : ArgumentList} :
    t.BuiltList p s es l → l.substitution.Extends s
  | .empty _ s => .refl s
  | .push hl ha => ha.extends.trans hl.extends

end

end Argumentation.Theory
