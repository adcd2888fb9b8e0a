import Argumentation.Proofs.RuleStore.Generated

namespace Argumentation

/-- A program that changes a store, and keeps its changes when it fails. -/
abbrev Mutation (α : Type) := ExceptT StoreError (StateM RuleStore) α

namespace Mutation

variable {α β : Type} {s : RuleStore}

def exec (m : Mutation α) (s : RuleStore) : Except StoreError α × RuleStore :=
  m.run s

theorem exec_get (s : RuleStore) : exec get s = (.ok s, s) :=
  rfl

theorem exec_modify (f : RuleStore → RuleStore) (s : RuleStore) :
    exec (modify f) s = (.ok ⟨⟩, f s) :=
  rfl

theorem exec_bind (m : Mutation α) (f : α → Mutation β) (s : RuleStore) :
    exec (m >>= f) s = match m.exec s with
      | (.ok a, s') => (f a).exec s'
      | (.error e, s') => (.error e, s') := by
  have hrun : exec (m >>= f) s = ExceptT.bindCont f (m.exec s).1 (m.exec s).2 := rfl
  rw [hrun]
  generalize m.exec s = result
  obtain ⟨result, s'⟩ := result
  cases result <;> rfl

theorem exec_forM (f : RuleStore → RuleId → RuleStore) (ids : List RuleId) (s : RuleStore) :
    exec (forM ids fun id ↦ modify (f · id)) s = (.ok ⟨⟩, ids.foldl f s) := by
  induction ids generalizing s with
  | nil => rfl
  | cons id ids ih =>
    rw [List.forM_cons, exec_bind, exec_modify, List.foldl_cons, ← ih]

theorem exec_mapM {f : α → Except StoreError β} {g : α → Mutation β}
    (h : ∀ a, (g a).exec s = (f a, s)) (as : List α) : exec (as.mapM g) s = (as.mapM f, s) := by
  induction as with
  | nil => rfl
  | cons a as ih =>
    rw [List.mapM_cons, List.mapM_cons, exec_bind, h]
    cases f a with
    | error e => rfl
    | ok b =>
      dsimp only
      rw [exec_bind, ih]
      cases as.mapM f <;> rfl

def reject (condition : Bool) (e : StoreError) : Mutation Unit :=
  if condition then throw e else return

def giveWay (name : Term) (id : RuleId) : Mutation RuleId := do
  match (← get).rule? id with
  | some other =>
    reject (!other.autoNamed) (.nameConflict name.text (.nameOf other.text))
    return id
  | none => return id

def settleName (r : Rule) : Mutation (Rule × List RuleId) :=
  match r.name with
  | some name => do
    reject (!name.isLiteral) (.nameConflict name.text .kindOfTerm)
    reject (name.unifies r.consequent) (.nameConflict name.text .ownConsequent)
    let ids ← ((← get).named name).mapM (giveWay name)
    return (r, ids)
  | none =>
    if r.isFact then return (r, [])
    else do
      let name ← modifyGet fun s ↦ s.takeName r
      return (r.withAutoName name, [])

def add (r : Rule) : Mutation RuleId := do
  reject ((← get).find? r (!·.origin.isTransposition)).isSome (.duplicateRule r.text)
  let (named, ids) ← settleName r
  modify fun s ↦ match s.find? named (·.origin.isTransposition) with
    | some transposed => s.dropGenerated transposed
    | none => s
  let id := (← get).nextId
  modify (·.insert named .user)
  forM ids fun other ↦ modify (·.rename other)
  modify fun s ↦ if named.isFact then s else s.addHook id
  modify fun s ↦ if s.transposing then s.transposeAll (s.rule? id).toList else s
  return id

def detach (id : RuleId) : Mutation Rule := do
  match (← get).rule? id with
  | none => throw (.ruleNotFound id)
  | some r =>
    modify (·.detach id)
    return r

def remove (id : RuleId) : Mutation Rule := do
  let s ← get
  match s.rule? id with
  | none => throw (.ruleNotFound id)
  | some r =>
    match r.origin.source? with
    | some source =>
      throw (.generatedRule r.text (((s.rule? source).map Rule.text).getD (Rule.idText source)))
    | none =>
      modify fun s ↦ { s with generated := s.generated.erase id }
      forM (s.generatedFrom id) fun child ↦ modify (·.detach child)
      let removed ← detach id
      modify fun s ↦ if s.transposing then s.transposeAll s.strictUserRules else s
      return removed

def removeMatching (r : Rule) : Mutation Rule := do
  match (← get).find? r (!·.isGenerated) with
  | some stored => remove stored.id
  | none =>
    let head := r.consequent
    throw (.noRulesFor (head.functor?.getD "") head.args.length r.antecedent.length)

theorem exec_reject_bind (condition : Bool) (e : StoreError) (f : Unit → Mutation β)
    (s : RuleStore) : exec (reject condition e >>= f) s =
      if condition then (.error e, s) else (f ⟨⟩).exec s := by
  rw [exec_bind, reject]
  cases condition <;> rfl

theorem exec_giveWay (name : Term) (id : RuleId) (s : RuleStore) :
    (giveWay name id).exec s = (match s.rule? id with
      | some other =>
        if other.autoNamed then .ok id else .error (.nameConflict name.text (.nameOf other.text))
      | none => .ok id, s) := by
  rw [giveWay, exec_bind, exec_get]
  dsimp only
  split
  · rw [exec_reject_bind]
    cases Rule.autoNamed _ <;> rfl
  · rfl

/-- A result of an operation, with the store as it was if there is none. -/
def outcome (s : RuleStore) : Except StoreError (α × RuleStore) → Except StoreError α × RuleStore
  | .ok (a, s') => (.ok a, s')
  | .error e => (.error e, s)

theorem exec_settleName (r : Rule) (s : RuleStore) : (settleName r).exec s =
    outcome s ((s.settleName r).map fun (named, ids, s') ↦ ((named, ids), s')) := by
  rw [settleName, RuleStore.settleName]
  cases r.name with
  | some name =>
    dsimp only
    rw [exec_reject_bind]
    split
    · rfl
    rw [exec_reject_bind]
    split
    · rfl
    rw [exec_bind, exec_get]
    dsimp only
    have hdisplaced : exec ((s.named name).mapM (giveWay name)) s = (s.displaced name, s) :=
      exec_mapM (fun id ↦ exec_giveWay name id s) _
    rw [exec_bind, hdisplaced]
    cases s.displaced name <;> rfl
  | none =>
    dsimp only
    split
    · rfl
    · rfl

theorem exec_add (r : Rule) (s : RuleStore) : (add r).exec s = outcome s (s.add r) := by
  rw [add, RuleStore.add, exec_bind, exec_get]
  dsimp only
  rw [exec_reject_bind]
  split
  · rfl
  rw [exec_bind, exec_settleName]
  cases s.settleName r with
  | error e => rfl
  | ok settled =>
    obtain ⟨named, ids, s₁⟩ := settled
    -- From here on the store is changed, and nothing can fail.
    dsimp only [Except.map, outcome]
    rw [exec_bind, exec_modify]
    dsimp only
    rw [exec_bind, exec_get]
    dsimp only
    rw [exec_bind, exec_modify]
    dsimp only
    rw [exec_bind, exec_forM]
    dsimp only
    rw [exec_bind, exec_modify]
    dsimp only
    rw [exec_bind, exec_modify]
    rfl

/-- The rule is still there when it is taken out: none of those that it generated is the rule
itself. -/
theorem exec_detach_source (h : s.Coherent) {r : Rule} {id : RuleId} (hr : s.rule? id = some r)
    (hsource : r.origin.source? = none) (generated : RuleIndex RuleId) :
    (detach id).exec ((s.generatedFrom id).foldl RuleStore.detach { s with generated }) =
      (.ok r, ((s.generatedFrom id).foldl RuleStore.detach { s with generated }).detach id) := by
  have hid : r.id = id := by simpa using List.find?_some hr
  have hmem : r ∈ s.rules := List.mem_of_find?_eq_some hr
  have hnot : id ∉ s.generatedFrom id := by
    intro hself
    obtain ⟨x, hx, hxid, hxsource⟩ := h.mem_generatedFrom.mp hself
    rw [h.eq_of_id hx hmem (hxid.trans hid.symm), hsource] at hxsource
    cases hxsource
  have hindexed := (h.withGenerated generated).foldl_detach (s.generatedFrom id)
  have hrest : r ∈ ((s.generatedFrom id).foldl RuleStore.detach { s with generated }).rules := by
    rw [RuleStore.rules_foldl_detach, List.mem_filter]
    exact ⟨hmem, by simpa [hid] using hnot⟩
  have hfound := hindexed.rule?_eq_some hrest
  rw [hid] at hfound
  rw [detach, exec_bind, exec_get]
  dsimp only
  rw [hfound]
  rfl

theorem exec_remove (h : s.Coherent) (id : RuleId) :
    (remove id).exec s = outcome s (s.remove id) := by
  rw [remove, RuleStore.remove, exec_bind, exec_get]
  dsimp only
  cases hr : s.rule? id with
  | none => rfl
  | some r =>
    dsimp only
    cases hsource : r.origin.source? with
    | some source => rfl
    | none =>
      dsimp only
      rw [exec_bind, exec_modify]
      dsimp only
      rw [exec_bind, exec_forM]
      dsimp only
      rw [exec_bind, exec_detach_source h hr hsource]
      dsimp only
      rw [exec_bind, exec_modify]
      rfl

theorem exec_removeMatching (h : s.Coherent) (r : Rule) :
    (removeMatching r).exec s = outcome s (s.removeMatching r) := by
  rw [removeMatching, RuleStore.removeMatching, exec_bind, exec_get]
  dsimp only
  cases s.find? r (!·.isGenerated) with
  | some stored => exact exec_remove h stored.id
  | none => rfl

theorem outcome_eq_error {result : Except StoreError (α × RuleStore)} {e : StoreError}
    {s' : RuleStore} : outcome s result = (.error e, s') ↔ result = .error e ∧ s' = s := by
  rcases result with e' | ⟨a, u⟩
  · simp [outcome, eq_comm]
  · simp [outcome]

end Mutation

namespace RuleStore

/-- A program that adds or removes a rule fails exactly when the operation does, with the same
error, and leaves the whole store as it was. -/
theorem Reachable.failures_change_nothing {s : RuleStore} (h : s.Reachable) :
    (∀ r e s', (Mutation.add r).exec s = (.error e, s') ↔ s.add r = .error e ∧ s' = s) ∧
    (∀ id e s', (Mutation.remove id).exec s = (.error e, s') ↔ s.remove id = .error e ∧ s' = s) ∧
    ∀ r e s', (Mutation.removeMatching r).exec s = (.error e, s') ↔
      s.removeMatching r = .error e ∧ s' = s := by
  refine ⟨fun r e s' ↦ ?_, fun id e s' ↦ ?_, fun r e s' ↦ ?_⟩
  · rw [Mutation.exec_add]
    exact Mutation.outcome_eq_error
  · rw [Mutation.exec_remove h.coherent]
    exact Mutation.outcome_eq_error
  · rw [Mutation.exec_removeMatching h.coherent]
    exact Mutation.outcome_eq_error

def christened : RuleStore :=
  (Engine.addAll ⟨.default, .empty false⟩
    [(Rule.plain (.const "p") [.const "q"] .one).withName (.const "n")]).2.store

theorem christened_unchanged :
    christened.rules.map Rule.text = ["p <- q.", "n."] ∧
    (∃ e, (Mutation.add ((Rule.plain (.const "a") [.const "b"] .one).withName (.const "n"))).exec
      christened = (.error e, christened)) ∧
    (∀ r e s', (Mutation.add r).exec christened = (.error e, s') ↔
      christened.add r = .error e ∧ s' = christened) ∧
    (∀ id e s', (Mutation.remove id).exec christened = (.error e, s') ↔
      christened.remove id = .error e ∧ s' = christened) ∧
    ∀ r e s', (Mutation.removeMatching r).exec christened = (.error e, s') ↔
      christened.removeMatching r = .error e ∧ s' = christened := by
  have hreachable : christened.Reachable := Engine.addAll_reachable (.empty false) _
  have hunchanged := hreachable.failures_change_nothing
  refine ⟨by decide +kernel, ?_, hunchanged⟩
  have hrefused : (christened.add
      ((Rule.plain (.const "a") [.const "b"] .one).withName (.const "n"))).isOk = false := by
    decide +kernel
  cases hadd : christened.add
      ((Rule.plain (.const "a") [.const "b"] .one).withName (.const "n")) with
  | error e => exact ⟨e, (hunchanged.1 _ e _).mpr ⟨hadd, rfl⟩⟩
  | ok added =>
    rw [hadd] at hrefused
    cases hrefused

end RuleStore

end Argumentation
