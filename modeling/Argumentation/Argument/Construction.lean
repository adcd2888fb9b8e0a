import Argumentation.Argument.Flow
import Argumentation.Argument.Valuation
import Argumentation.RuleStore.Basic
import Argumentation.Substitution.Evaluation

namespace Argumentation

structure Theory where
  store : RuleStore
  valuation : Valuation
  maxDepth : Nat

/-- One argument for each literal of a conjunction, with the bindings of all of them. -/
structure ArgumentList where
  arguments : List Argument
  substitution : Substitution

namespace ArgumentList

def empty (s : Substitution) : ArgumentList :=
  ⟨[], s⟩

def push (l : ArgumentList) (a : Argument) : ArgumentList :=
  ⟨l.arguments ++ [a], a.substitution⟩

end ArgumentList

structure Position where
  threshold : Threshold
  depth : Nat
  ancestors : List Term

namespace Position

def root (m : Threshold) : Position :=
  ⟨m, 0, []⟩

def below (p : Position) (goal : Term) (m : Threshold) : Position :=
  ⟨m, p.depth + 1, goal :: p.ancestors⟩

def repeats (p : Position) (goal : Term) : Bool :=
  p.ancestors.any fun g ↦ g.isVariant goal

end Position

def Term.negationsAsFailure : Term → Nat
  | .app (.op .notProvable) [t] => t.negationsAsFailure + 1
  | _ => 0

/-- A strict fact of no store that stands for a goal solved by evaluation. -/
def Rule.evaluated (goal : Term) : Rule :=
  plain goal [] .one

def Flow.evaluated (p : Position) (goal : Term) (s : Substitution) : Flow Argument :=
  .takeArgument fun id ↦ .pure
    { id, rule := .evaluated goal, substitution := s, subs := [], strength := .one
      depth := p.depth }

namespace Theory

/-- The arguments for a goal, given how literals are looked up and how the goal under a negation
as failure is tried. Numbers hold, variables have no arguments, and built-in goals are evaluated. -/
def settle (lookup attempt : Term → Flow Argument) (p : Position) (s : Substitution) :
    Term → Flow Argument
  | .var _ => .done
  | goal@(.num _) => .evaluated p goal s
  | goal@(.app (.name _) _) => lookup goal
  | goal@(.app (.op .notProvable) [inner]) => (attempt inner).ifEmpty (.evaluated p goal s)
  | goal@(.app (.op op) args) =>
    match op.evaluate args s with
    | .succeeded s' => .evaluated p goal s'
    | .failed => .done
    | .lookup =>
      match goal.arithLiteral? with
      | some literal => lookup literal
      | none => .done

/-- The lists of arguments for a conjunction, given the arguments for each of its literals; each
list extends a given one. -/
def lists (arguments : Substitution → Term → Flow Argument) :
    List Term → ArgumentList → Flow ArgumentList
  | [], l => .pure l
  | e :: es, l => (arguments l.substitution e).bind fun a ↦ lists arguments es (l.push a)

def conclude (t : Theory) (p : Position) (r : Rule) (l : ArgumentList) : Flow Argument :=
  let strength := t.valuation.strength r l.arguments
  if strength.meets p.threshold then
    .takeArgument fun id ↦ .pure
      { id, rule := r, substitution := l.substitution, subs := l.arguments, strength
        depth := p.depth }
  else .done

def subThreshold (t : Theory) (m : Threshold) : Threshold :=
  if t.valuation.prunes then m else 0

def byRule (t : Theory) (below : Position → Substitution → Term → Flow Argument) (p : Position)
    (s : Substitution) (goal : Term) (r : Rule) : Flow Argument :=
  if !r.degree.meets p.threshold then .done
  else .takeVariables r.allVars.length fun base ↦
    let renamed := r.renameApart base
    let unified := s.unify renamed.consequent goal
    if !unified.isConsistent then .done
    else
      let q := p.below goal (t.subThreshold p.threshold)
      (lists (below q) renamed.antecedent (.empty unified)).bind (t.conclude p renamed)

/-- The arguments for a goal below the greatest depth, where no rules are looked up. What remains
are evaluation and at most `n` negations as failure. -/
def beyond : (n : Nat) → Position → Substitution → Term → Flow Argument
  | 0, _, _, _ => .done
  | n + 1, p, s, goal =>
    settle (fun _ ↦ .done) (fun inner ↦ beyond n (p.below goal 0) s (s.apply inner)) p s goal

/-- The arguments for a goal with so many levels left at which rules are looked up. A goal that
repeats one that it is to support is not looked up. -/
def solve (t : Theory) : (levels : Nat) → Position → Substitution → Term → Flow Argument
  | 0, p, s, goal => beyond (goal.negationsAsFailure + 1) p s goal
  | levels + 1, p, s, goal =>
    let below (q : Position) (u : Substitution) (e : Term) := t.solve levels q u (u.apply e)
    let lookup (literal : Term) :=
      if p.repeats literal then .done
      else .concat (t.store.candidates literal) (t.byRule below p s literal)
    settle lookup (below (p.below goal 0) s) p s goal

def argumentsUnder (t : Theory) (s : Substitution) (m : Threshold) (e : Term) : Flow Argument :=
  t.solve (t.maxDepth + 1) (.root m) s (s.apply e)

def arguments (t : Theory) (m : Threshold) (e : Term) : Flow Argument :=
  t.argumentsUnder .empty m e

def argumentLists (t : Theory) (m : Threshold) (es : List Term) : Flow ArgumentList :=
  lists (fun s e ↦ t.argumentsUnder s m e) es (.empty .empty)

end Theory

end Argumentation
