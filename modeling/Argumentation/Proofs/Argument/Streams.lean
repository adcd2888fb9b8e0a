import Argumentation.Proofs.Argument.Agreement
import Argumentation.Proofs.Argument.Soundness

namespace Argumentation

inductive StreamState (L : Type) where
  | start
  | searching
  | expanding (rule : Rule) (lists : L)
  | done

structure GoalStream (L : Type) where
  goal : Term
  substitution : Substitution
  position : Position
  candidates : List Rule
  state : StreamState L

inductive ListStream where
  | empty (s : Option Substitution)
  | cons (head : ListStream) (last : Term) (position : Position)
    (current : Option (ArgumentList × GoalStream ListStream))

abbrev LiteralStream := GoalStream ListStream

/-- The lists for literals. The last literal is the outermost one. -/
def ListStream.new (literals : List Term) (s : Substitution) (p : Position) : ListStream :=
  literals.foldl (fun head last ↦ .cons head last p none) (.empty (some s))

namespace GoalStream

def new (literal : Term) (s : Substitution) (p : Position) : LiteralStream :=
  ⟨s.apply literal, s, p, [], .start⟩

/-- An instance of a rule and the lists for its antecedent, if the rule is strong enough and its
consequent unifies with the goal. -/
def expand (t : Theory) (m : LiteralStream) (r : Rule) (supply : Supply) :
    Option (Rule × ListStream) × Supply :=
  if r.degree.meets m.position.threshold then
    let renamed := r.renameApart supply.freeVariable
    let unified := m.substitution.unify renamed.consequent m.goal
    let q := m.position.below m.goal (t.subThreshold m.position.threshold)
    (if unified.isConsistent then some (renamed, .new renamed.antecedent unified q) else none,
      { supply with freeVariable := supply.freeVariable + r.allVars.length })
  else (none, supply)

def conclude (t : Theory) (m : LiteralStream) (r : Rule) (l : ArgumentList) (supply : Supply) :
    Option Argument × Supply :=
  let strength := t.valuation.strength r l.arguments
  if strength.meets m.position.threshold then
    (some ⟨supply.freeArgument, r, l.substitution, l.arguments, strength, m.position.depth⟩,
      { supply with freeArgument := supply.freeArgument + 1 })
  else (none, supply)

end GoalStream

abbrev Response (α σ : Type) := Option α × σ × Supply

abbrev Ask (α σ : Type) := σ → Supply → Option (Response α σ)

namespace GoalStream

def evaluated (m : LiteralStream) (u : Substitution) (supply : Supply) :
    Response Argument LiteralStream :=
  (some ⟨supply.freeArgument, .evaluated m.goal, u, [], .one, m.position.depth⟩,
    { m with state := .done }, { supply with freeArgument := supply.freeArgument + 1 })

def refute (m : LiteralStream) :
    Response Argument LiteralStream → Option (Response Argument LiteralStream)
  | (some _, _, supply) => some (none, { m with state := .done }, supply)
  | (none, _, supply) => some (m.evaluated m.substitution supply)

def resume (t : Theory) (next : Ask Argument LiteralStream) (m : LiteralStream) (rule : Rule) :
    Response ArgumentList ListStream → Option (Response Argument LiteralStream)
  | (some l, lists, supply) =>
    match m.conclude t rule l supply with
    | (some a, supply) => some (some a, { m with state := .expanding rule lists }, supply)
    | (none, supply) => next { m with state := .expanding rule lists } supply
  | (none, _, supply) => next { m with state := .searching } supply

end GoalStream

namespace ListStream

def extend (advance : Ask ArgumentList ListStream) (head : ListStream) (last : Term) (p : Position)
    (l : ArgumentList) :
    Response Argument LiteralStream → Option (Response ArgumentList ListStream)
  | (some a, tail, supply) => some (some (l.push a), .cons head last p (some (l, tail)), supply)
  | (none, tail, supply) => advance (.cons head last p (some (l, tail))) supply

def replace (next : Ask ArgumentList ListStream) (last : Term) (p : Position)
    (current : Option (ArgumentList × LiteralStream)) :
    Response ArgumentList ListStream → Option (Response ArgumentList ListStream)
  | (some l, head, supply) =>
    next (.cons head last p (some (l, .new last l.substitution p))) supply
  | (none, head, supply) => some (none, .cons head last p current, supply)

end ListStream

mutual

def GoalStream.next (t : Theory) : (steps : ℕ) → Ask Argument LiteralStream
  | 0, _, _ => none
  | steps + 1, m, supply =>
    match m.state with
    | .start =>
      match settlement m.substitution m.goal with
      | .unsolved => some (none, { m with state := .done }, supply)
      | .evaluated u => some (m.evaluated u supply)
      | .lookup literal =>
        if t.maxDepth < m.position.depth ∨ m.position.repeats literal = true then
          some (none, { m with goal := literal, state := .done }, supply)
        else GoalStream.next t steps { m with
          goal := literal, candidates := t.store.candidates literal, state := .searching } supply
      | .absent inner =>
        let attempt := GoalStream.new inner m.substitution (m.position.below m.goal 0)
        (GoalStream.next t steps attempt supply).bind m.refute
    | .searching =>
      match m.candidates with
      | [] => some (none, { m with state := .done }, supply)
      | r :: rules =>
        match m.expand t r supply with
        | (some (rule, lists), supply) =>
          GoalStream.next t steps
            { m with candidates := rules, state := .expanding rule lists } supply
        | (none, supply) => GoalStream.next t steps { m with candidates := rules } supply
    | .expanding rule lists =>
      (ListStream.next t steps lists supply).bind (m.resume t (GoalStream.next t steps) rule)
    | .done => some (none, m, supply)

/-- The next list: the list in use with the next argument for the last literal, or else another list
with the first one. -/
def ListStream.next (t : Theory) : (steps : ℕ) → Ask ArgumentList ListStream
  | 0, _, _ => none
  | steps + 1, m, supply =>
    match m with
    | .empty s => some (s.map .empty, .empty none, supply)
    | .cons head last p (some (l, tail)) => (GoalStream.next t steps tail supply).bind
      (ListStream.extend (ListStream.advance t steps) head last p l)
    | .cons _ _ _ none => ListStream.advance t steps m supply

def ListStream.advance (t : Theory) : (steps : ℕ) → Ask ArgumentList ListStream
  | 0, _, _ => none
  | steps + 1, m, supply =>
    match m with
    | .empty _ => some (none, m, supply)
    | .cons head last p current => (ListStream.next t steps head supply).bind
      (ListStream.replace (ListStream.next t steps) last p current)

end

/-- All that a stream gives out, one element after the other, if so many steps are enough for it. -/
def drain {α σ : Type} (next : ℕ → Ask α σ) :
    (steps : ℕ) → σ → Supply → Option (List α × Supply)
  | 0, _, _ => none
  | steps + 1, m, supply => (next steps m supply).bind fun
    | (some a, m, supply) =>
      (drain next steps m supply).bind fun (as, supply) ↦ some (a :: as, supply)
    | (none, _, supply) => some ([], supply)

/-- Whether something has a value whenever there are enough steps for it. -/
def Attains {α : Type} (outcome : ℕ → Option α) (a : α) : Prop :=
  ∃ enough, ∀ steps, enough ≤ steps → outcome steps = some a

namespace Attains

variable {α β : Type} {outcome : ℕ → Option α} {a : α}

theorem of_forall (h : ∀ steps, outcome steps = some a) : Attains outcome a :=
  ⟨0, fun steps _ ↦ h steps⟩

theorem of_succ (h : Attains (fun steps ↦ outcome (steps + 1)) a) : Attains outcome a := by
  obtain ⟨enough, h⟩ := h
  refine ⟨enough + 1, fun steps hsteps ↦ ?_⟩
  obtain ⟨k, rfl⟩ := Nat.exists_eq_add_of_le hsteps
  rw [Nat.add_right_comm]
  exact h _ (Nat.le_add_right _ _)

theorem bind {g : ℕ → α → Option β} {b : β} (h : Attains outcome a)
    (hg : Attains (fun steps ↦ g steps a) b) :
    Attains (fun steps ↦ (outcome steps).bind (g steps)) b := by
  obtain ⟨enough, h⟩ := h
  obtain ⟨enough', hg⟩ := hg
  refine ⟨max enough enough', fun steps hsteps ↦ ?_⟩
  show (outcome steps).bind (g steps) = some b
  rw [h steps (le_of_max_le_left hsteps), Option.bind_some]
  exact hg steps (le_of_max_le_right hsteps)

end Attains

/-- The response of a stream is the first element of a flow, if the flow has one, and whenever the
rest of the stream is asked, so is its response for the rest of the flow. -/
def Emits {α σ : Type} (next : ℕ → Ask α σ) :
    Flow α → Supply → (ℕ → Option (Response α σ)) → Prop
  | .done, supply, outcome => ∃ m, Attains outcome (none, m, supply)
  | .yield a rest, supply, outcome => ∃ m, Attains outcome (some a, m, supply) ∧
    ∀ supply', Emits next (rest ()) supply' (next · m supply')
  | .takeVariables n k, supply, outcome =>
    Emits next (k supply.freeVariable)
      { supply with freeVariable := supply.freeVariable + n } outcome
  | .takeArgument k, supply, outcome =>
    Emits next (k supply.freeArgument)
      { supply with freeArgument := supply.freeArgument + 1 } outcome

section Emits

variable {α β σ : Type} {next : ℕ → Ask α σ} {f : Flow α} {supply : Supply}
  {outcome : ℕ → Option (Response α σ)}

theorem Emits.imp {outcome' : ℕ → Option (Response α σ)} (h : Emits next f supply outcome)
    (himp : ∀ x, Attains outcome x → Attains outcome' x) : Emits next f supply outcome' := by
  induction f generalizing supply with
  | done => exact h.imp fun m hm ↦ himp _ hm
  | yield a rest => exact h.imp fun m hm ↦ ⟨himp _ hm.1, hm.2⟩
  | takeVariables n k ih => exact ih _ h
  | takeArgument k ih => exact ih _ h

theorem Emits.of_succ (h : Emits next f supply fun steps ↦ outcome (steps + 1)) :
    Emits next f supply outcome :=
  h.imp fun _ hx ↦ hx.of_succ

theorem Emits.bind {first : ℕ → Option β} {b : β} {g : ℕ → β → Option (Response α σ)}
    (hfirst : Attains first b) (h : Emits next f supply fun steps ↦ g steps b) :
    Emits next f supply fun steps ↦ (first steps).bind (g steps) :=
  h.imp fun _ hx ↦ hfirst.bind hx

theorem drain_of_emits {m : σ} {start : Supply} (h : Emits next f supply (next · m start)) :
    Attains (drain next · m start) (f.toList supply) := by
  induction f generalizing m start supply with
  | done =>
    obtain ⟨m', hm'⟩ := h
    exact .of_succ (hm'.bind (.of_forall fun _ ↦ rfl))
  | yield a rest ih =>
    obtain ⟨m', hm', hrest⟩ := h
    have htail := ih () (hrest supply)
    exact .of_succ (hm'.bind (htail.bind (.of_forall fun _ ↦ rfl)))
  | takeVariables n k ih => exact ih _ h
  | takeArgument k ih => exact ih _ h

end Emits

section Responses

variable {t : Theory} {m : LiteralStream} {supply : Supply} {head : ListStream} {last : Term}
  {p : Position}

/-- A stream with a rule in use gives out what is concluded from the lists, and then what it gives
out with the other rules. -/
theorem emits_expanding (rule : Rule) {lists : Flow ArgumentList}
    {outcome : ℕ → Option (Response ArgumentList ListStream)} {rest : Flow Argument}
    (hlists : Emits (ListStream.next t) lists supply outcome)
    (hrest : ∀ supply, Emits (GoalStream.next t) rest supply
      (GoalStream.next t · { m with state := .searching } supply)) :
    Emits (GoalStream.next t) ((lists.bind (t.conclude m.position rule)).append fun _ ↦ rest) supply
      fun steps ↦ (outcome steps).bind (m.resume t (GoalStream.next t steps) rule) := by
  -- On the flow: a stream whose first list was drawn is one for the rest of the flow.
  induction lists generalizing supply outcome with
  | done =>
    obtain ⟨lists', hlists⟩ := hlists
    exact .bind hlists (hrest supply)
  | yield l others ih =>
    obtain ⟨lists', hlists, hothers⟩ := hlists
    have hnext (supply' : Supply) : Emits (GoalStream.next t)
        (((others ()).bind (t.conclude m.position rule)).append fun _ ↦ rest) supply'
        (GoalStream.next t · { m with state := .expanding rule lists' } supply') :=
      .of_succ (ih () (hothers supply'))
    refine .bind hlists ?_
    rw [Flow.bind, Flow.append_assoc, Theory.conclude]
    simp only [GoalStream.resume, GoalStream.conclude]
    split
    · exact ⟨_, .of_forall fun _ ↦ rfl, hnext⟩
    · exact hnext supply
  | takeVariables n k ih => exact ih _ hlists
  | takeArgument k ih => exact ih _ hlists

theorem emits_cons {l : ArgumentList} {arguments : Flow Argument}
    {outcome : ℕ → Option (Response Argument LiteralStream)} {rest : Flow ArgumentList}
    (harguments : Emits (GoalStream.next t) arguments supply outcome)
    (hrest : ∀ supply tail, Emits (ListStream.next t) rest supply
      (ListStream.advance t · (.cons head last p (some (l, tail))) supply)) :
    Emits (ListStream.next t)
      ((arguments.bind fun a ↦ Flow.pure (l.push a)).append fun _ ↦ rest) supply
      fun steps ↦ (outcome steps).bind
        (ListStream.extend (ListStream.advance t steps) head last p l) := by
  induction arguments generalizing supply outcome with
  | done =>
    obtain ⟨tail', htail⟩ := harguments
    exact .bind htail (hrest supply tail')
  | yield a others ih =>
    obtain ⟨tail', htail, hothers⟩ := harguments
    exact .bind htail ⟨_, .of_forall fun _ ↦ rfl, fun supply' ↦ .of_succ (ih () (hothers supply'))⟩
  | takeVariables n k ih => exact ih _ harguments
  | takeArgument k ih => exact ih _ harguments

theorem emits_advance {lists : Flow ArgumentList} {arguments : Substitution → Flow Argument}
    {outcome : ℕ → Option (Response ArgumentList ListStream)}
    (hlists : Emits (ListStream.next t) lists supply outcome)
    (hacyclic : lists.All (·.substitution.Acyclic))
    (harguments : ∀ u : Substitution, u.Acyclic → ∀ supply, Emits (GoalStream.next t) (arguments u)
      supply (GoalStream.next t · (.new last u p) supply))
    (current : Option (ArgumentList × LiteralStream)) :
    Emits (ListStream.next t)
      (lists.bind fun l ↦ (arguments l.substitution).bind fun a ↦ Flow.pure (l.push a)) supply
      fun steps ↦ (outcome steps).bind
        (ListStream.replace (ListStream.next t steps) last p current) := by
  induction lists generalizing supply outcome current with
  | done =>
    obtain ⟨head', hhead⟩ := hlists
    exact ⟨_, hhead.bind (.of_forall fun _ ↦ rfl)⟩
  | yield l others ih =>
    obtain ⟨head', hhead, hothers⟩ := hlists
    have hcons := emits_cons (harguments _ hacyclic.1 supply) fun supply' tail ↦
      .of_succ (ih () (hothers supply') hacyclic.2 (some (l, tail)))
    exact .bind hhead (.of_succ hcons)
  | takeVariables n k ih => exact ih _ hlists (hacyclic _) current
  | takeArgument k ih => exact ih _ hlists (hacyclic _) current

theorem emits_refute {attempt : Flow Argument}
    {outcome : ℕ → Option (Response Argument LiteralStream)}
    (hattempt : Emits (GoalStream.next t) attempt supply outcome) :
    Emits (GoalStream.next t) (attempt.ifEmpty (.evaluated m.position m.goal m.substitution)) supply
      fun steps ↦ (outcome steps).bind m.refute := by
  induction attempt generalizing supply outcome with
  | done =>
    obtain ⟨attempt', hattempt⟩ := hattempt
    refine ⟨_, hattempt.bind (.of_forall fun _ ↦ rfl), fun supply' ↦ ?_⟩
    exact ⟨_, .of_succ (.of_forall fun _ ↦ rfl)⟩
  | yield a others =>
    obtain ⟨attempt', hattempt, -⟩ := hattempt
    exact ⟨_, hattempt.bind (.of_forall fun _ ↦ rfl)⟩
  | takeVariables n k ih => exact ih _ hattempt
  | takeArgument k ih => exact ih _ hattempt

end Responses

namespace Theory

variable {t : Theory} {s : Substitution} {p : Position} {supply : Supply}

def Starts (t : Theory) (arguments : Substitution → Term → Flow Argument) (p : Position) : Prop :=
  ∀ u e, u.Acyclic → ∀ supply,
    Emits (GoalStream.next t) (arguments u e) supply (GoalStream.next t · (.new e u p) supply)

theorem emits_lists {arguments : Substitution → Term → Flow Argument}
    (harguments : t.Starts arguments p)
    (hbuilt : ∀ u e, (arguments u e).All (t.Built p u (u.apply e))) (hs : s.Acyclic)
    (es : List Term) (supply : Supply) :
    Emits (ListStream.next t) (lists arguments es (.empty s)) supply
      (ListStream.next t · (.new es s p) supply) := by
  induction es using List.reverseRecOn generalizing supply with
  | nil =>
    refine ⟨.empty none, .of_succ (.of_forall fun _ ↦ rfl), fun _ ↦ ⟨.empty none, ?_⟩⟩
    exact .of_succ (.of_forall fun _ ↦ rfl)
  | append_singleton es e ih =>
    have hnew : ListStream.new (es ++ [e]) s p = .cons (.new es s p) e p none := by
      rw [ListStream.new, List.foldl_append]
      rfl
    have hacyclic : (lists arguments es (.empty s)).All (·.substitution.Acyclic) :=
      (lists_built (.empty p s) hbuilt).imp fun l hl ↦ hl.acyclic hs
    have hadvance := emits_advance (ih supply) hacyclic (fun u hu ↦ harguments u e hu) none
    rw [lists_concat, hnew]
    -- The new stream has no list in use: one step to see this and one to ask for a first list.
    exact .of_succ (.of_succ hadvance)

theorem emits_searching {below : Position → Substitution → Term → Flow Argument} {goal : Term}
    (hbelow : t.Starts (below (p.below goal (t.subThreshold p.threshold)))
      (p.below goal (t.subThreshold p.threshold)))
    (hbuilt : ∀ q u e, (below q u e).All (t.Built q u (u.apply e))) (hs : s.Acyclic)
    (rules : List Rule) (supply : Supply) :
    Emits (GoalStream.next t) (.concat rules (t.byRule below p s goal)) supply
      (GoalStream.next t · ⟨goal, s, p, rules, .searching⟩ supply) := by
  induction rules generalizing supply with
  | nil => exact ⟨_, .of_succ (.of_forall fun _ ↦ rfl)⟩
  | cons r rules ih =>
    refine .of_succ ?_
    simp only [GoalStream.next, GoalStream.expand]
    rw [Flow.concat, byRule]
    by_cases hdegree : r.degree.meets p.threshold = true
    · rw [if_neg (by simp [hdegree])]
      simp only [if_pos hdegree]
      show Emits _ (Flow.append (if _ then _ else _) _) _ _
      by_cases hconsistent :
          (s.unify (r.renameApart supply.freeVariable).consequent goal).isConsistent = true
      · rw [if_neg (by simp [hconsistent])]
        simp only [if_pos hconsistent]
        have hlists := emits_lists hbelow (hbuilt _)
          (hs.unify (r.renameApart supply.freeVariable).consequent goal)
          (r.renameApart supply.freeVariable).antecedent
          ⟨supply.freeVariable + r.allVars.length, supply.freeArgument⟩
        exact .of_succ (emits_expanding (m := ⟨goal, s, p, rules, .searching⟩)
          (r.renameApart supply.freeVariable) hlists ih)
      · rw [if_pos (by simp [hconsistent])]
        simp only [if_neg hconsistent]
        exact ih _
    · rw [if_pos (by simp [hdegree])]
      simp only [if_neg hdegree]
      exact ih supply

theorem emits_settle {lookup attempt : Term → Flow Argument} {goal : Term}
    (hlookup : ∀ literal, settlement s goal = .lookup literal →
      Emits (GoalStream.next t) (lookup literal) supply fun steps ↦
        if t.maxDepth < p.depth ∨ p.repeats literal = true then
          some (none, ⟨literal, s, p, [], .done⟩, supply)
        else GoalStream.next t steps ⟨literal, s, p, t.store.candidates literal, .searching⟩ supply)
    (hattempt : ∀ inner, settlement s goal = .absent inner →
      Emits (GoalStream.next t) (attempt inner) supply
        (GoalStream.next t · (.new inner s (p.below goal 0)) supply)) :
    Emits (GoalStream.next t) (settle lookup attempt p s goal) supply
      (GoalStream.next t · ⟨goal, s, p, [], .start⟩ supply) := by
  refine .of_succ ?_
  simp only [settle_eq, GoalStream.next]
  cases hgoal : settlement s goal with
  | unsolved => exact ⟨_, .of_forall fun _ ↦ rfl⟩
  | evaluated u =>
    exact ⟨_, .of_forall fun _ ↦ rfl, fun _ ↦ ⟨_, .of_succ (.of_forall fun _ ↦ rfl)⟩⟩
  | lookup literal => exact hlookup literal hgoal
  | absent inner => exact emits_refute (m := ⟨goal, s, p, [], .start⟩) (hattempt inner hgoal)

theorem emits_beyond (hdepth : t.maxDepth < p.depth) (k : ℕ) {goal : Term}
    (hk : goal.negationsAsFailure < k) (happlied : s.apply goal = goal) (supply : Supply) :
    Emits (GoalStream.next t) (beyond k p s goal) supply
      (GoalStream.next t · ⟨goal, s, p, [], .start⟩ supply) := by
  induction k generalizing p goal supply with
  | zero => omega
  | succ k ih =>
    rw [beyond]
    refine emits_settle (fun literal _ ↦ ?_) fun inner hinner ↦ ?_
    · simp only [if_pos (Or.inl hdepth)]
      exact ⟨_, .of_forall fun _ ↦ rfl⟩
    · have hlt : inner.negationsAsFailure < k := by
        rw [eq_of_settlement_absent hinner, Term.negationsAsFailure] at hk
        omega
      have hinnerApplied := apply_of_settlement_absent hinner happlied
      rw [GoalStream.new, hinnerApplied]
      exact ih (Nat.lt_succ_of_lt hdepth) hlt hinnerApplied supply

/-- A new stream for a goal gives out the arguments that the search finds, and takes their numbers
in the same turns. -/
theorem emits_solve {levels : ℕ} (hlevels : levels + p.depth = t.maxDepth + 1) (hs : s.Acyclic)
    {goal : Term} (happlied : s.apply goal = goal) (supply : Supply) :
    Emits (GoalStream.next t) (t.solve levels p s goal) supply
      (GoalStream.next t · ⟨goal, s, p, [], .start⟩ supply) := by
  induction levels generalizing p s goal supply with
  | zero => exact emits_beyond (by omega) _ (Nat.lt_succ_self _) happlied supply
  | succ levels ih =>
    refine emits_settle (fun literal _ ↦ ?_) fun inner hinner ↦ ?_
    · by_cases hrepeats : p.repeats literal = true
      · simp only [if_pos hrepeats, if_pos (Or.inr hrepeats)]
        exact ⟨_, .of_forall fun _ ↦ rfl⟩
      · have hsearched : ¬(t.maxDepth < p.depth ∨ p.repeats literal = true) :=
          not_or_intro (by omega) hrepeats
        simp only [if_neg hrepeats, if_neg hsearched]
        refine emits_searching (fun u e hu supply ↦ ?_) (fun q u e ↦ solve_built levels q u _) hs _
          supply
        refine ih ?_ hu (Substitution.apply_idem hu e) supply
        simp only [Position.below]
        omega
    · refine ih ?_ hs (Substitution.apply_idem hs inner) supply
      simp only [Position.below]
      omega

theorem drain_literal (hs : s.Acyclic) (m : Threshold) (e : Term) (supply : Supply) :
    Attains (drain (GoalStream.next t) · (.new e s (.root m)) supply)
      ((t.argumentsUnder s m e).toList supply) :=
  drain_of_emits (emits_solve (Nat.add_zero (t.maxDepth + 1)) hs (Substitution.apply_idem hs e)
    supply)

theorem drain_lists (hs : s.Acyclic) (m : Threshold) (es : List Term) (supply : Supply) :
    Attains (drain (ListStream.next t) · (.new es s (.root m)) supply)
      ((lists (fun u e ↦ t.argumentsUnder u m e) es (.empty s)).toList supply) := by
  have hstarts : t.Starts (fun u e ↦ t.argumentsUnder u m e) (.root m) := fun u e hu supply ↦
    emits_solve (Nat.add_zero (t.maxDepth + 1)) hu (Substitution.apply_idem hu e) supply
  exact drain_of_emits (emits_lists hstarts (fun u e ↦ solve_built _ _ u _) hs es supply)

theorem below_of_consistent (hconsistent : s.isConsistent = true) {n : ℕ}
    (hbindings : ∀ x ∈ s.bindings, x.1.id < n ∧ ∀ v ∈ x.2.occurrences, v.id < n) : Below n s := by
  refine Substitution.below_of_bindings hbindings ?_
  rw [Substitution.isConsistent, Bool.and_eq_true, List.isEmpty_iff] at hconsistent
  simp [hconsistent.1]

/-- Draining the streams that start under bindings without cycles gives what draining the flows
gives: the computed arguments for a goal, and the computed lists for a conjunction, one for one and
in order, but for the numbers of arguments and of fresh variables. -/
theorem drain_computes (t : Theory) (hs : s.Acyclic) (hconsistent : s.isConsistent = true) {n : ℕ}
    (hbindings : ∀ x ∈ s.bindings, x.1.id < n ∧ ∀ v ∈ x.2.occurrences, v.id < n) (m : Threshold)
    {supply : Supply} (hn : n ≤ supply.freeVariable) :
    (∀ e : Term, (∀ v ∈ e.occurrences, v.id < n) →
      Attains (drain (GoalStream.next t) · (.new e s (.root m)) supply)
        ((t.argumentsUnder s m e).toList supply) ∧
      List.Forall₂ (fun a x ↦ Alike Argument.form n a x.1)
        ((t.argumentsUnder s m e).toList supply).1
        (t.allArguments (.root m) s (s.apply e) n)) ∧
    ∀ es : List Term, (∀ e ∈ es, ∀ v ∈ e.occurrences, v.id < n) →
      Attains (drain (ListStream.next t) · (.new es s (.root m)) supply)
        ((lists (fun u e ↦ t.argumentsUnder u m e) es (.empty s)).toList supply) ∧
      List.Forall₂ (fun l x ↦ Alike ArgumentList.form n l x.1)
        ((lists (fun u e ↦ t.argumentsUnder u m e) es (.empty s)).toList supply).1
        (allLists (fun u e c ↦ t.allArguments (.root m) u (u.apply e) c) s n es) := by
  have hbelow := below_of_consistent hconsistent hbindings
  refine ⟨fun e he ↦ ⟨drain_literal hs m e supply, ?_⟩,
    fun es hes ↦ ⟨drain_lists hs m es supply, ?_⟩⟩
  · exact argumentsUnder_alike hbelow hs (Term.below_of_occurrences he) hn
  · exact listsUnder_alike hbelow hs (fun e he ↦ Term.below_of_occurrences (hes e he)) hn

def cidGiven : Substitution :=
  Substitution.empty.unify (.var ⟨"W", 4⟩) (.const "cid")

theorem cidGiven_drained :
    ((grandparents.argumentsUnder cidGiven 0 grandchild).toList ⟨5, 1⟩).1.map (·.subs.length) =
      [4] ∧
    (Attains (drain (GoalStream.next grandparents) · (.new grandchild cidGiven (.root 0)) ⟨5, 1⟩)
        ((grandparents.argumentsUnder cidGiven 0 grandchild).toList ⟨5, 1⟩) ∧
      List.Forall₂ (fun a x ↦ Alike Argument.form 5 a x.1)
        ((grandparents.argumentsUnder cidGiven 0 grandchild).toList ⟨5, 1⟩).1
        (grandparents.allArguments (.root 0) cidGiven (cidGiven.apply grandchild) 5)) ∧
    (Attains (drain (ListStream.next grandparents) ·
          (.new [grandchild, grandchild] cidGiven (.root 0)) ⟨5, 1⟩)
        ((lists (fun u e ↦ grandparents.argumentsUnder u 0 e) [grandchild, grandchild]
          (.empty cidGiven)).toList ⟨5, 1⟩) ∧
      List.Forall₂ (fun l x ↦ Alike ArgumentList.form 5 l x.1)
        ((lists (fun u e ↦ grandparents.argumentsUnder u 0 e) [grandchild, grandchild]
          (.empty cidGiven)).toList ⟨5, 1⟩).1
        (allLists (fun u e c ↦ grandparents.allArguments (.root 0) u (u.apply e) c) cidGiven 5
          [grandchild, grandchild])) := by
  have hacyclic : cidGiven.Acyclic := Substitution.acyclic_empty.unify _ _
  have hnumbers : 5 ≤ (⟨5, 1⟩ : Supply).freeVariable := Nat.le_refl 5
  have hcomputed := grandparents.drain_computes hacyclic (by decide +kernel) (by decide +kernel) 0
    hnumbers
  exact ⟨by decide +kernel, hcomputed.1 grandchild (by decide),
    hcomputed.2 [grandchild, grandchild] (by decide)⟩

end Theory

end Argumentation
