import Argumentation.Rule.Transposition
import Argumentation.RuleStore.Basic

namespace Argumentation.RuleStore

def autoName (n : Nat) (r : Rule) : Term :=
  .app (.name ("r" ++ toString n)) (r.vars.map .var)

/-- How many automatic names to pass over. Each stored rule can hold at most one of them, so one
more than there are rules to try is enough. -/
def skippedNames (s : RuleStore) (r : Rule) : Nat :=
  let tries := List.range (s.rules.length + 1)
  (tries.find? fun i ↦ !s.isRuleName (autoName (s.nextName + i) r)).getD s.rules.length

def takeName (s : RuleStore) (r : Rule) : Term × RuleStore :=
  let n := s.nextName + s.skippedNames r
  (autoName n r, { s with nextName := n + 1 })

def indexName (s : RuleStore) (r : Rule) : RuleStore :=
  match r.name.bind Term.predicate? with
  | some p => { s with names := s.names.push p r.id }
  | none => s

def unindexName (s : RuleStore) (r : Rule) : RuleStore :=
  match r.name.bind Term.predicate? with
  | some p => { s with names := s.names.drop p r.id }
  | none => s

def insert (s : RuleStore) (r : Rule) (origin : Origin) : RuleStore :=
  let stored := { r with id := s.nextId, origin }
  let indexed := s.indexName stored
  { indexed with
    rules := s.rules ++ [stored]
    conclusions := match stored.consequent.predicate? with
      | some p => s.conclusions.push (p, stored.antecedent.length) stored.id
      | none => s.conclusions
    generated := match origin.source? with
      | some source => s.generated.push source stored.id
      | none => s.generated
    catalogue := s.catalogue.record stored
    nextId := s.nextId + 1 }

def detach (s : RuleStore) (id : RuleId) : RuleStore :=
  match s.rule? id with
  | none => s
  | some r =>
    let unnamed := s.unindexName r
    { unnamed with
      rules := s.rules.filter (·.id != id)
      conclusions := match r.consequent.predicate? with
        | some p => s.conclusions.drop (p, r.antecedent.length) id
        | none => s.conclusions
      catalogue := s.catalogue.forget r }

def dropGenerated (s : RuleStore) (r : Rule) : RuleStore :=
  let rest := s.detach r.id
  match r.origin.source? with
  | some source => { rest with generated := rest.generated.drop source r.id }
  | none => rest

def addHook (s : RuleStore) (id : RuleId) : RuleStore :=
  match s.rule? id with
  | some r =>
    match r.name with
    | some name => s.insert (.plain name [] r.degree) (.hook id)
    | none => s
  | none => s

def rename (s : RuleStore) (id : RuleId) : RuleStore :=
  match s.rule? id with
  | none => s
  | some r =>
    let (name, s₁) := (s.unindexName r).takeName r
    let renamed := r.withAutoName name
    let s₂ := s₁.indexName renamed
    let s₃ := { s₂ with rules := s₂.rules.map fun x ↦ if x.id = id then renamed else x }
    if r.origin = .user then
      let hooks := (s₃.generatedFrom id).filter fun h ↦ (s₃.rule? h).any (·.origin.isHook)
      let s₄ := hooks.foldl detach s₃
      addHook { s₄ with generated := hooks.foldl (fun g h ↦ g.drop id h) s₄.generated } id
    else s₃

def transpose (s : RuleStore) (source : Rule) : RuleStore :=
  source.contrapositives.foldl
    (fun acc r ↦
      if acc.contains r then acc
      else
        let (name, acc') := acc.takeName r
        acc'.insert (r.withAutoName name) (.transposition source.id))
    s

def transposeAll (s : RuleStore) (sources : List Rule) : RuleStore :=
  sources.foldl transpose s

/-- The rules that give way to a name: all that it unifies with, if their names are automatic. -/
def displaced (s : RuleStore) (name : Term) : Except StoreError (List RuleId) :=
  (s.named name).mapM fun id ↦
    match s.rule? id with
    | some other =>
      if other.autoNamed then .ok id else .error (.nameConflict name.text (.nameOf other.text))
    | none => .ok id

def settleName (s : RuleStore) (r : Rule) : Except StoreError (Rule × List RuleId × RuleStore) :=
  match r.name with
  | some name =>
    if !name.isLiteral then .error (.nameConflict name.text .kindOfTerm)
    else if name.unifies r.consequent then .error (.nameConflict name.text .ownConsequent)
    else (s.displaced name).map fun ids ↦ (r, ids, s)
  | none =>
    if r.isFact then .ok (r, [], s)
    else
      let (name, s') := s.takeName r
      .ok (r.withAutoName name, [], s')

/-- A user's rule with everything it generates. A variant of a stored rule is refused, unless it
is a variant of a contrapositive, whose place it takes. A name is refused if it unifies with the
rule's own consequent or with a name that a user gave. -/
def add (s : RuleStore) (r : Rule) : Except StoreError (RuleId × RuleStore) :=
  if (s.find? r (!·.origin.isTransposition)).isSome then .error (.duplicateRule r.text)
  else
    (s.settleName r).map fun (named, ids, s₁) ↦
      let s₂ := match s₁.find? named (·.origin.isTransposition) with
        | some transposed => s₁.dropGenerated transposed
        | none => s₁
      let id := s₂.nextId
      let s₃ := ids.foldl rename (s₂.insert named .user)
      let s₄ := if named.isFact then s₃ else s₃.addHook id
      let s₅ := if s₄.transposing then s₄.transposeAll (s₄.rule? id).toList else s₄
      (id, s₅)

/-- A user's rule removed with everything it generated. The contrapositives that it shared with
other strict rules are generated again. -/
def remove (s : RuleStore) (id : RuleId) : Except StoreError (Rule × RuleStore) :=
  match s.rule? id with
  | none => .error (.ruleNotFound id)
  | some r =>
    match r.origin.source? with
    | some source =>
      .error (.generatedRule r.text (((s.rule? source).map Rule.text).getD (Rule.idText source)))
    | none =>
      let children := s.generatedFrom id
      let s₁ := { s with generated := s.generated.erase id }
      let s₂ := (children.foldl detach s₁).detach id
      .ok (r, if s₂.transposing then s₂.transposeAll s₂.strictUserRules else s₂)

def removeMatching (s : RuleStore) (r : Rule) : Except StoreError (Rule × RuleStore) :=
  match s.find? r (!·.isGenerated) with
  | some stored => s.remove stored.id
  | none =>
    let head := r.consequent
    .error (.noRulesFor (head.functor?.getD "") head.args.length r.antecedent.length)

def setTransposing (s : RuleStore) (on : Bool) : RuleStore :=
  if s.transposing = on then s
  else
    let s₁ := { s with transposing := on }
    if on then s₁.transposeAll s₁.strictUserRules
    else
      let gone := (s₁.rules.filter (·.origin.isTransposition)).map (·.id)
      let s₂ := gone.foldl detach s₁
      { s₂ with generated := s₂.generated.dropAll gone }

end Argumentation.RuleStore
