import Argumentation.Proofs.Argument.Drawing
import Argumentation.Proofs.Argument.Recursion

namespace Argumentation

namespace Flow

variable {ε α β γ : Type}

def found : Flow (ε ⊕ α) → Flow α
  | .done => .done
  | .yield (.inl _) rest => (rest ()).found
  | .yield (.inr a) rest => .yield a fun _ ↦ (rest ()).found
  | .takeVariables n next => .takeVariables n fun base ↦ (next base).found
  | .takeArgument next => .takeArgument fun id ↦ (next id).found

def silent (f : Flow α) : Flow (ε ⊕ α) :=
  f.bind fun a ↦ .pure (.inr a)

def andThen (f : Flow (ε ⊕ α)) (k : α → Flow (ε ⊕ β)) : Flow (ε ⊕ β) :=
  f.bind fun
    | .inl e => .pure (.inl e)
    | .inr a => k a

def unlessFound : Flow (ε ⊕ α) → Flow (ε ⊕ β) → Flow (ε ⊕ β)
  | .done, k => k
  | .yield (.inl e) rest, k => .yield (.inl e) fun _ ↦ (rest ()).unlessFound k
  | .yield (.inr _) _, _ => .done
  | .takeVariables n next, k => .takeVariables n fun base ↦ (next base).unlessFound k
  | .takeArgument next, k => .takeArgument fun id ↦ (next id).unlessFound k

theorem found_append (f : Flow (ε ⊕ α)) (k : Unit → Flow (ε ⊕ α)) :
    (f.append k).found = f.found.append fun _ ↦ (k ()).found := by
  induction f with
  | done => rfl
  | yield x rest ih =>
    cases x with
    | inl e => exact ih ()
    | inr a => exact congrArg _ (funext fun _ ↦ ih ())
  | takeVariables n next ih => exact congrArg _ (funext ih)
  | takeArgument next ih => exact congrArg _ (funext ih)

theorem found_silent (f : Flow α) : (f.silent : Flow (ε ⊕ α)).found = f := by
  induction f with
  | done => rfl
  | yield a rest ih => exact congrArg _ (funext fun _ ↦ ih ())
  | takeVariables n next ih => exact congrArg _ (funext ih)
  | takeArgument next ih => exact congrArg _ (funext ih)

theorem found_andThen (f : Flow (ε ⊕ α)) (k : α → Flow (ε ⊕ β)) :
    (f.andThen k).found = f.found.bind fun a ↦ (k a).found := by
  induction f with
  | done => rfl
  | yield x rest ih =>
    cases x with
    | inl e => exact ih ()
    | inr a =>
      refine (found_append (k a) _).trans ?_
      exact congrArg _ (funext fun _ ↦ ih ())
  | takeVariables n next ih => exact congrArg _ (funext ih)
  | takeArgument next ih => exact congrArg _ (funext ih)

theorem found_concat (cs : List γ) (f : γ → Flow (ε ⊕ α)) :
    (concat cs f).found = concat cs fun c ↦ (f c).found := by
  induction cs with
  | nil => rfl
  | cons c cs ih => rw [concat, concat, found_append, ih]

theorem found_unlessFound (f : Flow (ε ⊕ α)) (k : Flow (ε ⊕ β)) :
    (f.unlessFound k).found = f.found.ifEmpty k.found := by
  induction f with
  | done => rfl
  | yield x rest ih =>
    cases x with
    | inl e => exact ih ()
    | inr a => rfl
  | takeVariables n next ih => exact congrArg _ (funext ih)
  | takeArgument next ih => exact congrArg _ (funext ih)

theorem mem_toList_found {f : Flow (ε ⊕ α)} {s : Supply} {a : α} (h : a ∈ (f.found.toList s).1) :
    Sum.inr a ∈ (f.toList s).1 := by
  induction f generalizing s with
  | done => cases h
  | yield x rest ih =>
    cases x with
    | inl e => exact .tail _ (ih () h)
    | inr b =>
      rcases List.mem_cons.mp h with rfl | h
      · exact .head _
      · exact .tail _ (ih () h)
  | takeVariables n next ih => exact ih _ h
  | takeArgument next ih => exact ih _ h

/-- Whatever numbers a flow takes, each time from those that are free after all it has taken so far,
its elements have a property. The property knows the number from which on all are free. -/
def Throughout (P : ℕ → α → Prop) : ℕ → Flow α → Prop
  | _, .done => True
  | n, .yield a rest => P n a ∧ Throughout P n (rest ())
  | n, .takeVariables k next => ∀ m, n ≤ m → Throughout P (m + k) (next m)
  | n, .takeArgument next => ∀ id, Throughout P n (next id)

def Persists (P : ℕ → α → Prop) : Prop :=
  ∀ n m a, n ≤ m → P n a → P m a

section Throughout

variable {P : ℕ → α → Prop} {n : ℕ}

theorem Throughout.mono (hP : Persists P) {f : Flow α} (h : f.Throughout P n) {m : ℕ}
    (hm : n ≤ m) : f.Throughout P m := by
  induction f generalizing n m with
  | done => trivial
  | yield a rest ih => exact ⟨hP n m a hm h.1, ih () h.2 hm⟩
  | takeVariables k next ih => exact fun m' hm' ↦ h m' (hm.trans hm')
  | takeArgument next ih => exact fun id ↦ ih id (h id) hm

theorem Throughout.imp {Q : ℕ → α → Prop} {f : Flow α} (h : f.Throughout P n)
    (hQ : ∀ m a, n ≤ m → P m a → Q m a) : f.Throughout Q n := by
  induction f generalizing n with
  | done => trivial
  | yield a rest ih => exact ⟨hQ n a le_rfl h.1, ih () h.2 hQ⟩
  | takeVariables k next ih =>
    refine fun m hm ↦ ih m (h m hm) fun m' a hm' ↦ hQ m' a ?_
    exact hm.trans ((Nat.le_add_right m k).trans hm')
  | takeArgument next ih => exact fun id ↦ ih id (h id) hQ

theorem Throughout.pure {a : α} (h : P n a) : (Flow.pure a).Throughout P n :=
  ⟨h, trivial⟩

theorem Throughout.append {f : Flow α} {k : Unit → Flow α} (hf : f.Throughout P n)
    (hk : ∀ m, n ≤ m → (k ()).Throughout P m) : (f.append k).Throughout P n := by
  induction f generalizing n with
  | done => exact hk n le_rfl
  | yield a rest ih => exact ⟨hf.1, ih () hf.2 hk⟩
  | takeVariables k' next ih =>
    refine fun m hm ↦ ih m (hf m hm) fun m' hm' ↦ hk m' ?_
    exact hm.trans ((Nat.le_add_right m k').trans hm')
  | takeArgument next ih => exact fun id ↦ ih id (hf id) hk

theorem Throughout.concat {cs : List γ} {f : γ → Flow α}
    (h : ∀ c ∈ cs, ∀ m, n ≤ m → (f c).Throughout P m) : (Flow.concat cs f).Throughout P n := by
  induction cs generalizing n with
  | nil => trivial
  | cons c cs ih =>
    refine (h c (.head _) n le_rfl).append fun m hm ↦ ih fun c' hc' m' hm' ↦ ?_
    exact h c' (.tail _ hc') m' (hm.trans hm')

theorem Throughout.bind {Q : ℕ → β → Prop} (hP : Persists P) {f : Flow α} {k : α → Flow β}
    (hf : f.Throughout P n) (hk : ∀ m a, n ≤ m → P m a → (k a).Throughout Q m) :
    (f.bind k).Throughout Q n := by
  induction f generalizing n with
  | done => trivial
  | yield a rest ih =>
    refine (hk n a le_rfl hf.1).append fun m hm ↦ ?_
    exact ih () (hf.2.mono hP hm) fun m' a' hm' ↦ hk m' a' (hm.trans hm')
  | takeVariables k' next ih =>
    refine fun m hm ↦ ih m (hf m hm) fun m' a hm' ↦ hk m' a ?_
    exact hm.trans ((Nat.le_add_right m k').trans hm')
  | takeArgument next ih => exact fun id ↦ ih id (hf id) hk

theorem Throughout.toList {P : α → Prop} {f : Flow α} (h : f.Throughout (fun _ ↦ P) n)
    {s : Supply} (hs : n ≤ s.freeVariable) : ∀ a ∈ (f.toList s).1, P a := by
  induction f generalizing n s with
  | done => simp [Flow.toList]
  | yield a rest ih => exact List.forall_mem_cons.mpr ⟨h.1, ih () h.2 hs⟩
  | takeVariables k next ih => exact ih _ (h _ hs) le_rfl
  | takeArgument next ih => exact ih _ (h _) hs

end Throughout

section Noting

variable {N : ε → Prop} {P : ℕ → α → Prop} {Q : ℕ → β → Prop} {n : ℕ}

def Noting (N : ε → Prop) (P : ℕ → α → Prop) : ℕ → ε ⊕ α → Prop
  | _, .inl e => N e
  | n, .inr a => P n a

theorem Persists.noting (hP : Persists P) : Persists (Noting N P)
  | _, _, .inl _, _, h => h
  | n, m, .inr a, hm, h => hP n m a hm h

theorem Throughout.silent (hP : Persists P) {f : Flow α} (h : f.Throughout P n) :
    f.silent.Throughout (Noting N P) n :=
  h.bind hP fun _ _ _ ha ↦ .pure ha

theorem Throughout.andThen (hP : Persists P) {f : Flow (ε ⊕ α)} {k : α → Flow (ε ⊕ β)}
    (hf : f.Throughout (Noting N P) n)
    (hk : ∀ m a, n ≤ m → P m a → (k a).Throughout (Noting N Q) m) :
    (f.andThen k).Throughout (Noting N Q) n := by
  refine hf.bind hP.noting fun m x hm hx ↦ ?_
  cases x with
  | inl e => exact .pure hx
  | inr a => exact hk m a hm hx

theorem Throughout.unlessFound {f : Flow (ε ⊕ α)} {k : Flow (ε ⊕ β)}
    (hf : f.Throughout (Noting N P) n) (hk : ∀ m, n ≤ m → k.Throughout (Noting N Q) m) :
    (f.unlessFound k).Throughout (Noting N Q) n := by
  induction f generalizing n with
  | done => exact hk n le_rfl
  | yield x rest ih =>
    cases x with
    | inl e => exact ⟨hf.1, ih () hf.2 hk⟩
    | inr a => trivial
  | takeVariables k' next ih =>
    refine fun m hm ↦ ih m (hf m hm) fun m' hm' ↦ hk m' ?_
    exact hm.trans ((Nat.le_add_right m k').trans hm')
  | takeArgument next ih => exact fun id ↦ ih id (hf id) hk

end Noting

end Flow

/-- An instance of a rule at the time when it is to be unified with a literal under bindings. -/
structure Expansion where
  literal : Term
  substitution : Substitution
  rule : Rule

namespace Theory

def traceSettle (lookup attempt : Term → Flow (Expansion ⊕ Argument)) (p : Position)
    (s : Substitution) (goal : Term) : Flow (Expansion ⊕ Argument) :=
  match settlement s goal with
  | .unsolved => .done
  | .evaluated u => (Flow.evaluated p goal u).silent
  | .lookup literal => lookup literal
  | .absent inner => (attempt inner).unlessFound (Flow.evaluated p goal s).silent

def traceLists (arguments : Substitution → Term → Flow (Expansion ⊕ Argument)) :
    List Term → ArgumentList → Flow (Expansion ⊕ ArgumentList)
  | [], l => .pure (.inr l)
  | e :: es, l =>
    (arguments l.substitution e).andThen fun a ↦ traceLists arguments es (l.push a)

def traceExpansion (t : Theory)
    (below : Position → Substitution → Term → Flow (Expansion ⊕ Argument)) (p : Position)
    (x : Expansion) : Flow (Expansion ⊕ Argument) :=
  let unified := x.substitution.unify x.rule.consequent x.literal
  if !unified.isConsistent then .done
  else
    let q := p.below x.literal (t.subThreshold p.threshold)
    (traceLists (below q) x.rule.antecedent (.empty unified)).andThen fun l ↦
      (t.conclude p x.rule l).silent

def traceRule (t : Theory)
    (below : Position → Substitution → Term → Flow (Expansion ⊕ Argument)) (p : Position)
    (s : Substitution) (literal : Term) (r : Rule) : Flow (Expansion ⊕ Argument) :=
  if !r.degree.meets p.threshold then .done
  else .takeVariables r.allVars.length fun base ↦
    let x : Expansion := ⟨literal, s, r.renameApart base⟩
    .yield (.inl x) fun _ ↦ t.traceExpansion below p x

def traceBeyond : (n : ℕ) → Position → Substitution → Term → Flow (Expansion ⊕ Argument)
  | 0, _, _, _ => .done
  | n + 1, p, s, goal =>
    traceSettle (fun _ ↦ .done) (fun inner ↦ traceBeyond n (p.below goal 0) s (s.apply inner)) p s
      goal

def traceSolve (t : Theory) :
    (levels : ℕ) → Position → Substitution → Term → Flow (Expansion ⊕ Argument)
  | 0, p, s, goal => traceBeyond (goal.negationsAsFailure + 1) p s goal
  | levels + 1, p, s, goal =>
    let below (q : Position) (u : Substitution) (e : Term) := t.traceSolve levels q u (u.apply e)
    let lookup (literal : Term) :=
      if p.repeats literal then .done
      else .concat (t.store.candidates literal) (t.traceRule below p s literal)
    traceSettle lookup (below (p.below goal 0) s) p s goal

/-- The search for the arguments for a literal, with all expansions of rules. -/
def traceUnder (t : Theory) (s : Substitution) (m : Threshold) (e : Term) :
    Flow (Expansion ⊕ Argument) :=
  t.traceSolve (t.maxDepth + 1) (.root m) s (s.apply e)

variable {t : Theory} {p : Position} {s : Substitution}

theorem found_traceSettle (lookup attempt : Term → Flow (Expansion ⊕ Argument)) (p : Position)
    (s : Substitution) (goal : Term) : (traceSettle lookup attempt p s goal).found =
      settle (fun literal ↦ (lookup literal).found) (fun inner ↦ (attempt inner).found) p s
        goal := by
  rw [settle_eq, traceSettle]
  cases settlement s goal with
  | unsolved => rfl
  | evaluated u => exact Flow.found_silent _
  | lookup literal => rfl
  | absent inner =>
    dsimp only
    rw [Flow.found_unlessFound, Flow.found_silent]

theorem found_traceLists (arguments : Substitution → Term → Flow (Expansion ⊕ Argument))
    (es : List Term) (l : ArgumentList) : (traceLists arguments es l).found =
      lists (fun u e ↦ (arguments u e).found) es l := by
  induction es generalizing l with
  | nil => rfl
  | cons e es ih =>
    rw [traceLists, Flow.found_andThen, lists]
    simp only [ih]

theorem found_traceRule (below : Position → Substitution → Term → Flow (Expansion ⊕ Argument))
    (p : Position) (s : Substitution) (literal : Term) (r : Rule) :
    (t.traceRule below p s literal r).found =
      t.byRule (fun q u e ↦ (below q u e).found) p s literal r := by
  rw [traceRule, byRule]
  split
  · rfl
  refine congrArg _ (funext fun base ↦ ?_)
  show (t.traceExpansion below p ⟨literal, s, r.renameApart base⟩).found = _
  rw [traceExpansion]
  dsimp only
  split
  · rfl
  · simp only [Flow.found_andThen, Flow.found_silent, found_traceLists]

theorem found_traceBeyond (n : ℕ) (p : Position) (s : Substitution) (goal : Term) :
    (traceBeyond n p s goal).found = beyond n p s goal := by
  induction n generalizing p s goal with
  | zero => rfl
  | succ n ih =>
    rw [traceBeyond, found_traceSettle, beyond]
    simp only [ih]
    rfl

theorem found_traceSolve (levels : ℕ) (p : Position) (s : Substitution) (goal : Term) :
    (t.traceSolve levels p s goal).found = t.solve levels p s goal := by
  induction levels generalizing p s goal with
  | zero => exact found_traceBeyond _ p s goal
  | succ levels ih =>
    rw [traceSolve, found_traceSettle, solve]
    have hlookup (literal : Term) :
        (if p.repeats literal then Flow.done else .concat (t.store.candidates literal)
          (t.traceRule (fun q u e ↦ t.traceSolve levels q u (u.apply e)) p s literal)).found =
        if p.repeats literal then .done else .concat (t.store.candidates literal)
          (t.byRule (fun q u e ↦ t.solve levels q u (u.apply e)) p s literal) := by
      split
      · rfl
      · simp only [Flow.found_concat, found_traceRule, ih]
    simp only [hlookup, ih]

theorem found_traceUnder (t : Theory) (s : Substitution) (m : Threshold) (e : Term) :
    (t.traceUnder s m e).found = t.argumentsUnder s m e :=
  found_traceSolve _ _ _ _

theorem found_traceUnder_lists (t : Theory) (m : Threshold) (es : List Term) (l : ArgumentList) :
    (traceLists (fun u e ↦ t.traceUnder u m e) es l).found =
      lists (fun u e ↦ t.argumentsUnder u m e) es l := by
  rw [found_traceLists]
  simp only [found_traceUnder]

end Theory

end Argumentation
