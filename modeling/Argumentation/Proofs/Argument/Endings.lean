import Mathlib.Data.Set.Finite.Basic
import Argumentation.Proofs.Argument.Streams
import Argumentation.Proofs.Substitution.Termination

namespace Argumentation

section Exhausted

variable {t : Theory} {supply : Supply}

theorem GoalStream.done_of_none {steps : ℕ} {m m' : LiteralStream} {left : Supply}
    (h : GoalStream.next t steps m supply = some (none, m', left)) : m'.state = .done := by
  induction steps generalizing m supply with
  | zero => cases h
  | succ steps ih =>
    rw [GoalStream.next] at h
    split at h
    · split at h
      · cases h
        rfl
      · cases h
      · split at h
        · cases h
          rfl
        · exact ih h
      · obtain ⟨⟨answer, _, _⟩, -, hrefute⟩ := Option.bind_eq_some_iff.mp h
        cases answer <;> cases hrefute
        rfl
    · split at h
      · cases h
        rfl
      · split at h <;> exact ih h
    · obtain ⟨⟨answer, lists, left⟩, -, hresume⟩ := Option.bind_eq_some_iff.mp h
      cases answer with
      | none => exact ih hresume
      | some l =>
        rw [GoalStream.resume] at hresume
        split at hresume
        · cases hresume
        · exact ih hresume
    · cases h
      assumption

inductive Exhausted : ListStream → Prop where
  | empty : Exhausted (.empty none)
  | cons {head : ListStream} (hhead : Exhausted head) (last : Term) (p : Position)
    {current : Option (ArgumentList × LiteralStream)}
    (hcurrent : ∀ x ∈ current, x.2.state = .done) : Exhausted (.cons head last p current)

/-- The stream that is left after the last answer is exhausted. Another list is looked for only when
there is no argument left with the list in use. -/
theorem exhausted_of_none (steps : ℕ) :
    (∀ (m m' : ListStream) (supply left : Supply),
      ListStream.next t steps m supply = some (none, m', left) → Exhausted m') ∧
    ∀ (head : ListStream) (last : Term) (p : Position)
      (current : Option (ArgumentList × LiteralStream)) (m' : ListStream) (supply left : Supply),
      (∀ x ∈ current, x.2.state = .done) →
      ListStream.advance t steps (.cons head last p current) supply = some (none, m', left) →
      Exhausted m' := by
  induction steps with
  | zero =>
    constructor
    · intro m m' supply left h
      cases h
    · intro head last p current m' supply left _ h
      cases h
  | succ steps ih =>
    obtain ⟨ihnext, ihadvance⟩ := ih
    constructor
    · intro m m' supply left h
      cases m with
      | empty s =>
        cases s <;> cases h
        exact .empty
      | cons head last p current =>
        cases current with
        | none => exact ihadvance head last p none m' supply left (fun x hx ↦ by cases hx) h
        | some x =>
          obtain ⟨l, tail⟩ := x
          obtain ⟨⟨answer, tail', left'⟩, htail, hextend⟩ := Option.bind_eq_some_iff.mp h
          cases answer with
          | some a => cases hextend
          | none =>
            refine ihadvance head last p _ m' left' left (fun x hx ↦ ?_) hextend
            cases hx
            exact GoalStream.done_of_none htail
    · intro head last p current m' supply left hcurrent h
      obtain ⟨⟨answer, head', left'⟩, hhead, hreplace⟩ := Option.bind_eq_some_iff.mp h
      cases answer with
      | some l => exact ihnext _ m' left' left hreplace
      | none =>
        cases hreplace
        exact .cons (ihnext head head' supply _ hhead) last p hcurrent

theorem GoalStream.attains_none {m : LiteralStream} (h : m.state = .done) (supply : Supply) :
    Attains (GoalStream.next t · m supply) (none, m, supply) := by
  refine .of_succ (.of_forall fun steps ↦ ?_)
  simp only [GoalStream.next, h]

theorem Exhausted.attains_none {m : ListStream} (h : Exhausted m) (supply : Supply) :
    Attains (ListStream.next t · m supply) (none, m, supply) := by
  induction h with
  | empty => exact .of_succ (.of_forall fun _ ↦ rfl)
  | @cons head _ last p current hcurrent ih =>
    have hadvance : Attains (ListStream.advance t · (.cons head last p current) supply)
        (none, .cons head last p current, supply) :=
      .of_succ (ih.bind (.of_forall fun _ ↦ rfl))
    cases current with
    | none => exact .of_succ hadvance
    | some x =>
      obtain ⟨l, tail⟩ := x
      exact .of_succ ((GoalStream.attains_none (hcurrent _ rfl) supply).bind hadvance)

end Exhausted

/-- Whatever numbers are free whenever the stream is asked, it always answers, and only finitely
many of its answers are elements. -/
def Ends {α σ : Type} (next : ℕ → Ask α σ) (m : σ) : Prop :=
  ∀ supplies : ℕ → Supply, ∃ (states : ℕ → σ) (answers : ℕ → Option α), states 0 = m ∧
    (∀ i, ∃ left, Attains (next · (states i) (supplies i)) (answers i, states (i + 1), left)) ∧
    {i | ∃ a, answers i = some a}.Finite

theorem ends_of_emits {α σ : Type} {next : ℕ → Ask α σ} {Spent : σ → Prop}
    (hnone : ∀ steps m m' supply left, next steps m supply = some (none, m', left) → Spent m')
    (hspent : ∀ m, Spent m → ∀ supply, Attains (next · m supply) (none, m, supply)) {m : σ}
    {f : Flow α} (h : ∀ supply, Emits next f supply (next · m supply)) : Ends next m := by
  intro supplies
  -- Only the first question follows the flow from its beginning.
  suffices hsuffices : ∀ {start}, Emits next f start (next · m (supplies 0)) →
      ∃ (states : ℕ → σ) (answers : ℕ → Option α), states 0 = m ∧
        (∀ i, ∃ left, Attains (next · (states i) (supplies i)) (answers i, states (i + 1), left)) ∧
        {i | ∃ a, answers i = some a}.Finite from hsuffices (h _)
  clear h
  intro start h
  induction f generalizing m supplies start with
  | done =>
    obtain ⟨m', hm'⟩ := h
    have hspentM' : Spent m' := by
      obtain ⟨enough, henough⟩ := hm'
      exact hnone _ _ _ _ _ (henough enough (Nat.le_refl _))
    refine ⟨fun i ↦ if i = 0 then m else m', fun _ ↦ none, rfl, fun i ↦ ?_, ?_⟩
    · cases i with
      | zero => exact ⟨start, hm'⟩
      | succ i => exact ⟨_, hspent m' hspentM' (supplies (i + 1))⟩
    · simp
  | yield a rest ih =>
    obtain ⟨m', hm', hrest⟩ := h
    obtain ⟨states, answers, hzero, hanswers, hfinite⟩ :=
      ih () (fun i ↦ supplies (i + 1)) (hrest (supplies 1))
    refine ⟨fun i ↦ i.casesOn m states, fun i ↦ i.casesOn (some a) answers, rfl, fun i ↦ ?_, ?_⟩
    · cases i with
      | zero => exact ⟨start, by rw [← hzero] at hm'; exact hm'⟩
      | succ i => exact hanswers i
    · refine ((hfinite.image (· + 1)).insert 0).subset fun i hi ↦ ?_
      cases i with
      | zero => exact .inl rfl
      | succ i => exact .inr ⟨i, hi, rfl⟩
  | takeVariables n k ih => exact ih _ supplies h
  | takeArgument k ih => exact ih _ supplies h

namespace Theory

variable {s : Substitution}

/-- Over every knowledge base, recursive or not, the streams of arguments for a goal and of lists
for a conjunction end, from whatever acyclic bindings they start; and so does each unification that
they ask for on the way, within the depth that it is given. -/
theorem streams_end (t : Theory) (hs : s.Acyclic) (m : Threshold) :
    (∀ e : Term, Ends (GoalStream.next t) (.new e s (.root m))) ∧
    (∀ es : List Term, Ends (ListStream.next t) (.new es s (.root m))) ∧
    ∀ (u : Substitution) (l r : Term), u.Acyclic →
      Substitution.unifyUntil (Substitution.unifyDepth l r u) l r u = some (u.unify l r) ∧
        (u.unify l r).Acyclic := by
  have hstarts : t.Starts (fun u e ↦ t.argumentsUnder u m e) (.root m) := fun u e hu supply ↦
    emits_solve (Nat.add_zero (t.maxDepth + 1)) hu (Substitution.apply_idem hu e) supply
  refine ⟨fun e ↦ ?_, fun es ↦ ?_, fun u l r hu ↦ ?_⟩
  · exact ends_of_emits (fun _ _ _ _ _ h ↦ GoalStream.done_of_none h)
      (fun _ h ↦ GoalStream.attains_none h) (hstarts s e hs)
  · exact ends_of_emits (fun steps ↦ (exhausted_of_none steps).1) (fun _ h ↦ h.attains_none)
      (emits_lists hstarts (fun u e ↦ solve_built _ _ u _) hs es)
  · exact ⟨hu.unifyUntil_eq (Nat.le_refl _), hu.unify l r⟩

def growing : Theory :=
  ofRules .weakestLink [
    .plain (.app (.name "p") [.var ⟨"X", 0⟩])
      [.app (.name "p") [.app (.name "f") [.var ⟨"X", 0⟩]]] .one,
    .plain (.app (.name "p") [.const "a"]) [] .one]

theorem growing_ends :
    (∀ e : Term, Ends (GoalStream.next growing) (.new e cidGiven (.root 0))) ∧
    (∀ es : List Term, Ends (ListStream.next growing) (.new es cidGiven (.root 0))) ∧
    ∀ (u : Substitution) (l r : Term), u.Acyclic →
      Substitution.unifyUntil (Substitution.unifyDepth l r u) l r u = some (u.unify l r) ∧
        (u.unify l r).Acyclic := by
  have hacyclic : cidGiven.Acyclic := Substitution.acyclic_empty.unify _ _
  exact growing.streams_end hacyclic 0

end Theory

end Argumentation
