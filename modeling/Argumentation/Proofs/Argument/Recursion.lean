import Argumentation.Proofs.Argument.Built
import Mathlib.Data.List.Induction

namespace Argumentation

inductive Settlement where
  | unsolved
  /-- The one argument holds by evaluation, with the bindings given back. -/
  | evaluated (u : Substitution)
  | lookup (literal : Term)
  /-- The goal holds if there is no argument for the one under the negation. -/
  | absent (inner : Term)

def settlement (s : Substitution) : Term → Settlement
  | .var _ => .unsolved
  | .num _ => .evaluated s
  | .app (.name f) xs => .lookup (.app (.name f) xs)
  | .app (.op .notProvable) [inner] => .absent inner
  | .app (.op op) args =>
    match op.evaluate args s with
    | .succeeded u => .evaluated u
    | .failed => .unsolved
    | .lookup =>
      match (Term.app (.op op) args).arithLiteral? with
      | some literal => .lookup literal
      | none => .unsolved

section Settlement

variable {s u : Substitution} {goal literal inner : Term}

theorem evaluates_of_settlement (h : settlement s goal = .evaluated u) :
    Theory.Evaluates s goal u := by
  revert h
  fun_cases settlement s goal <;> intro h <;> cases h
  · exact .number _
  · exact .builtin ‹_›

theorem lookedUpAs_of_settlement (h : settlement s goal = .lookup literal) :
    Theory.LookedUpAs goal literal := by
  revert h
  fun_cases settlement s goal <;> intro h <;> cases h
  · exact .name _ _
  · exact .arith ‹_›

theorem exists_name_of_settlement (h : settlement s goal = .lookup literal) :
    ∃ f xs, literal = .app (.name f) xs := by
  cases lookedUpAs_of_settlement h with
  | name f xs => exact ⟨f, xs, rfl⟩
  | arith h =>
    obtain ⟨op, xs, -, rfl⟩ := Term.arithLiteral?_eq_some.mp h
    exact ⟨_, xs, rfl⟩

theorem eq_of_settlement_absent (h : settlement s goal = .absent inner) :
    goal = .app (.op .notProvable) [inner] := by
  revert h
  fun_cases settlement s goal <;> intro h <;> cases h
  rfl

theorem settlement_builtin {op : Operator} {xs : List Term}
    (h : ¬∃ inner, op = .notProvable ∧ xs = [inner]) : settlement s (.app (.op op) xs) =
      match op.evaluate xs s with
      | .succeeded u => .evaluated u
      | .failed => .unsolved
      | .lookup =>
        match (Term.app (.op op) xs).arithLiteral? with
        | some literal => .lookup literal
        | none => .unsolved := by
  rw [settlement]
  rintro inner rfl rfl
  exact h ⟨inner, rfl, rfl⟩

end Settlement

namespace Theory

theorem settle_eq (lookup attempt : Term → Flow Argument) (p : Position) (s : Substitution)
    (goal : Term) : settle lookup attempt p s goal =
      match settlement s goal with
      | .unsolved => .done
      | .evaluated u => .evaluated p goal u
      | .lookup literal => lookup literal
      | .absent inner => (attempt inner).ifEmpty (.evaluated p goal s) := by
  fun_cases settlement s goal with
  | case5 op args hne u hu => simp [settle, hu]
  | case6 op args hne hu => simp [settle, hu]
  | case7 op args hne hu literal hl => simp [settle, hu, hl]
  | case8 op args hne hu hl => simp [settle, hu, hl]
  | _ => rfl

/-- All lists of arguments for a conjunction: those for the literals before the last one, each with
every argument for the last one under its bindings. -/
def allLists (arguments : Substitution → Term → ℕ → List (Argument × ℕ)) (s : Substitution)
    (n : ℕ) (es : List Term) : List (ArgumentList × ℕ) :=
  es.foldl (fun lists e ↦ lists.flatMap fun (l, n) ↦
    (arguments l.substitution e n).map fun (a, n) ↦ (l.push a, n)) [(.empty s, n)]

theorem allLists_nil (arguments : Substitution → Term → ℕ → List (Argument × ℕ))
    (s : Substitution) (n : ℕ) : allLists arguments s n [] = [(.empty s, n)] :=
  rfl

theorem allLists_concat (arguments : Substitution → Term → ℕ → List (Argument × ℕ))
    (s : Substitution) (n : ℕ) (es : List Term) (e : Term) :
    allLists arguments s n (es ++ [e]) = (allLists arguments s n es).flatMap fun (l, n) ↦
      (arguments l.substitution e n).map fun (a, n) ↦ (l.push a, n) := by
  rw [allLists, List.foldl_append]
  rfl

def evaluation (p : Position) (goal : Term) (s : Substitution) : Argument :=
  ⟨0, .evaluated goal, s, [], .one, p.depth⟩

def conclusion? (t : Theory) (p : Position) (r : Rule) (l : ArgumentList) : Option Argument :=
  let strength := t.valuation.strength r l.arguments
  if strength.meets p.threshold then some ⟨0, r, l.substitution, l.arguments, strength, p.depth⟩
  else none

def allByRule (t : Theory) (below : Substitution → Term → ℕ → List (Argument × ℕ)) (p : Position)
    (s : Substitution) (goal : Term) (n : ℕ) (r : Rule) : List (Argument × ℕ) :=
  let renamed := r.renameApart n
  let unified := s.unify renamed.consequent goal
  if unified.isConsistent then
    (allLists below unified (n + r.allVars.length) renamed.antecedent).filterMap fun (l, n) ↦
      (t.conclusion? p renamed l).map (·, n)
  else []

/-- All arguments for a goal under bindings that it is already applied to, where variables are free
from a number on. Rules are looked up for a literal, unless the goal lies too deep or the literal
repeats one that it is to support. -/
def allArguments (t : Theory) (p : Position) (s : Substitution) (goal : Term) (n : ℕ) :
    List (Argument × ℕ) :=
  match _h : settlement s goal with
  | .unsolved => []
  | .evaluated u => [(evaluation p goal u, n)]
  | .lookup literal =>
    if _h : t.maxDepth < p.depth then []
    else if p.repeats literal then []
    else
      let q := p.below literal (t.subThreshold p.threshold)
      (t.store.candidates literal).flatMap
        (t.allByRule (fun u e n ↦ t.allArguments q u (u.apply e) n) p s literal n)
  | .absent inner =>
    if (t.allArguments (p.below goal 0) s inner n).isEmpty then [(evaluation p goal s, n)] else []
termination_by (t.maxDepth + 1 - p.depth, goal.negationsAsFailure)
decreasing_by
  · exact .left _ _ (by simp only [Position.below]; omega)
  -- Negations as failure are followed below the greatest depth too, where only the goal shrinks.
  · rw [eq_of_settlement_absent ‹settlement s goal = .absent inner›]
    rcases Nat.lt_or_ge t.maxDepth p.depth with h | h
    · simp only [Position.below, Term.negationsAsFailure]
      rw [show t.maxDepth + 1 - (p.depth + 1) = t.maxDepth + 1 - p.depth by omega]
      exact .right _ (Nat.lt_succ_self _)
    · exact .left _ _ (by simp only [Position.below]; omega)

def lookupAll (t : Theory) (p : Position) (s : Substitution) (literal : Term) (n : ℕ) :
    List (Argument × ℕ) :=
  if t.maxDepth < p.depth ∨ p.repeats literal = true then []
  else
    let q := p.below literal (t.subThreshold p.threshold)
    (t.store.candidates literal).flatMap
      (t.allByRule (fun u e n ↦ t.allArguments q u (u.apply e) n) p s literal n)

theorem allArguments_eq (t : Theory) (p : Position) (s : Substitution) (goal : Term) (n : ℕ) :
    t.allArguments p s goal n =
      match settlement s goal with
      | .unsolved => []
      | .evaluated u => [(evaluation p goal u, n)]
      | .lookup literal => t.lookupAll p s literal n
      | .absent inner =>
        if (t.allArguments (p.below goal 0) s inner n).isEmpty then [(evaluation p goal s, n)]
        else [] := by
  rw [allArguments]
  split <;> rename_i heq <;> simp only [heq]
  rw [lookupAll]
  split <;> split <;> simp_all

/-- Induction along the recursion: goals are one level further down than what they are to support,
and rules are not looked up below the greatest depth. -/
theorem allArguments_induction (t : Theory) {motive : Position → Term → Prop}
    (step : ∀ p goal, (p.depth ≤ t.maxDepth → ∀ q e, q.depth = p.depth + 1 → motive q e) →
      (∀ inner, goal = .app (.op .notProvable) [inner] → ∀ q, q.depth = p.depth + 1 →
        motive q inner) → motive p goal) (p : Position) (goal : Term) : motive p goal :=
  step p goal (fun _ q e _ ↦ allArguments_induction t step q e)
    fun inner _ q _ ↦ allArguments_induction t step q inner
termination_by (t.maxDepth + 1 - p.depth, goal.negationsAsFailure)
decreasing_by
  · exact .left _ _ (by omega)
  · subst ‹goal = _›
    rcases Nat.lt_or_ge t.maxDepth p.depth with h | h
    · rw [show t.maxDepth + 1 - q.depth = t.maxDepth + 1 - p.depth by omega]
      exact .right _ (Nat.lt_succ_self _)
    · exact .left _ _ (by omega)

variable {t : Theory} {p : Position} {s : Substitution}

theorem allLists_built {arguments : Substitution → Term → ℕ → List (Argument × ℕ)}
    (h : ∀ u e n, ∀ x ∈ arguments u e n, t.Built p u (u.apply e) x.1) (n : ℕ) (es : List Term) :
    ∀ x ∈ allLists arguments s n es, t.BuiltList p s es x.1 := by
  induction es using List.reverseRecOn with
  | nil =>
    intro x hx
    rw [allLists_nil, List.mem_singleton] at hx
    rw [hx]
    exact .empty p s
  | append_singleton es e ih =>
    intro x hx
    rw [allLists_concat, List.mem_flatMap] at hx
    obtain ⟨y, hy, hx⟩ := hx
    obtain ⟨a, ha, rfl⟩ := List.mem_map.mp hx
    exact .push (ih y hy) (h _ e _ a ha)

/-- An argument by the rules for a literal is concluded from a list for the antecedent of a rule
whose consequent unifies with the literal. -/
theorem mem_lookupAll {literal : Term} {n : ℕ} {x : Argument × ℕ}
    (hx : x ∈ t.lookupAll p s literal n) : p.depth ≤ t.maxDepth ∧
      ∃ r ∈ t.store.candidates literal,
        (s.unify (r.renameApart n).consequent literal).isConsistent = true ∧
        ∃ l ∈ allLists (fun u e n ↦
            t.allArguments (p.below literal (t.subThreshold p.threshold)) u (u.apply e) n)
            (s.unify (r.renameApart n).consequent literal) (n + r.allVars.length)
            (r.renameApart n).antecedent,
          x = (⟨0, r.renameApart n, l.1.substitution, l.1.arguments,
            t.valuation.strength (r.renameApart n) l.1.arguments, p.depth⟩, l.2) := by
  rw [lookupAll] at hx
  split at hx
  · cases hx
  rename_i hguards
  obtain ⟨r, hr, hx⟩ := List.mem_flatMap.mp hx
  refine ⟨Nat.le_of_not_lt fun h ↦ hguards (.inl h), r, hr, ?_⟩
  rw [allByRule] at hx
  dsimp only at hx
  split at hx
  · rename_i hunified
    obtain ⟨l, hl, hx⟩ := List.mem_filterMap.mp hx
    rw [conclusion?] at hx
    split at hx
    · cases hx
      exact ⟨hunified, l, hl, rfl⟩
    · cases hx
  · cases hx

theorem lookupAll_built {goal literal : Term} (hliteral : LookedUpAs goal literal) {n : ℕ}
    (hbelow : p.depth ≤ t.maxDepth → ∀ q e, q.depth = p.depth + 1 → ∀ u n,
      ∀ x ∈ t.allArguments q u e n, t.Built q u e x.1) :
    ∀ x ∈ t.lookupAll p s literal n, t.Built p s goal x.1 := by
  intro x hx
  obtain ⟨hdepth, r, hr, hunified, l, hl, rfl⟩ := mem_lookupAll hx
  have hlist := allLists_built (fun u e n ↦ hbelow hdepth _ (u.apply e) rfl u n) _ _ _ hl
  exact .concluded 0 hliteral hr hunified hlist

theorem allArguments_built (p : Position) (goal : Term) :
    ∀ s n, ∀ x ∈ t.allArguments p s goal n, t.Built p s goal x.1 := by
  induction p, goal using t.allArguments_induction with
  | step p goal ihbelow _ =>
    intro s n x hx
    rw [allArguments_eq] at hx
    split at hx
    · cases hx
    · rename_i hgoal
      rw [List.mem_singleton.mp hx]
      exact .evaluated 0 (evaluates_of_settlement hgoal)
    · rename_i hgoal
      exact lookupAll_built (lookedUpAs_of_settlement hgoal) ihbelow x hx
    · rename_i hgoal
      split at hx
      · rw [List.mem_singleton.mp hx, eq_of_settlement_absent hgoal]
        exact .evaluated 0 (.absent _)
      · cases hx

end Theory

end Argumentation
