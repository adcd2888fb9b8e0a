import Argumentation.Proofs.Argument.Agreement
import Argumentation.Proofs.Argument.Breadth
import Argumentation.Proofs.Argument.Trace

namespace Argumentation

namespace Rule

theorem exists_renaming (r : Rule) (base : ℕ) : ∃ f : Variable → Variable,
    r.renameApart base = r.rename f ∧
    (∀ v ∈ r.allVars, base ≤ (f v).id ∧ (f v).id < base + r.allVars.length) ∧
    ∀ v ∈ r.allVars, ∀ w ∈ r.allVars, (f v).id = (f w).id → v = w := by
  refine ⟨fun v ↦ ⟨v.name, base + r.allVars.idxOf v⟩, rfl, fun v hv ↦ ?_, fun v hv w hw h ↦ ?_⟩
  · have hlt := List.idxOf_lt_length_of_mem hv
    exact ⟨Nat.le_add_right _ _, Nat.add_lt_add_left hlt base⟩
  · exact (List.idxOf_inj hv).mp (Nat.add_left_cancel h)

theorem numbered_renameApart (r : Rule) (base : ℕ) : ∀ v ∈ (r.renameApart base).occurrences,
    base ≤ v.id ∧ v.id < base + r.allVars.length := by
  obtain ⟨f, hf, hnumbered, -⟩ := r.exists_renaming base
  intro w hw
  rw [hf, occurrences_rename] at hw
  obtain ⟨v, hv, rfl⟩ := List.mem_map.mp hw
  exact hnumbered v (mem_occurrences.mp hv)

end Rule

namespace Expansion

/-- The instance is one of a stored rule and has no variable of the literal or of the bindings. -/
structure IsFresh (store : RuleStore) (x : Expansion) : Prop where
  stored : ∃ r ∈ store.rules, ∃ base, x.rule = r.renameApart base
  apart : ∀ v ∈ x.rule.occurrences, (∀ w ∈ x.literal.occurrences, w.id ≠ v.id) ∧
    ∀ w ∈ x.substitution.occurrences, w.id ≠ v.id

theorem isFresh_of_below {store : RuleStore} {r : Rule} (hr : r ∈ store.rules) {n base : ℕ}
    {s : Substitution} {literal : Term} (hs : Below n s) (hliteral : Below n literal)
    (hbase : n ≤ base) : IsFresh store ⟨literal, s, r.renameApart base⟩ where
  stored := ⟨r, hr, base, rfl⟩
  apart := by
    intro v hv
    have hle := (r.numbered_renameApart base v hv).1
    refine ⟨fun w hw ↦ ?_, fun w hw ↦ ?_⟩
    · have := Term.below_iff.mp hliteral w hw
      omega
    · have := Substitution.below_iff.mp hs w hw
      omega

end Expansion

namespace Argument

variable {a b : Argument} {as : List Argument} {lo mid hi : ℕ}

/-- The instance that is applied at an address. Where a goal is evaluated there is none, as the rule
there comes from no store. -/
def instanceAt? (a : Argument) (p : List ℕ) : Option Rule :=
  (a.nodeAt? p).bind fun x ↦ if x.rule.id = Rule.detached then none else some x.rule

theorem instanceAt?_nil {r : Rule} :
    a.instanceAt? [] = some r ↔ a.rule.id ≠ Rule.detached ∧ a.rule = r := by
  rw [instanceAt?, nodeAt?, Option.bind_some, Option.ite_none_left_eq_some, Option.some.injEq]

theorem instanceAt?_cons {i : ℕ} {p : List ℕ} {r : Rule} :
    a.instanceAt? (i :: p) = some r ↔ ∃ b, a.subs[i]? = some b ∧ b.instanceAt? p = some r := by
  rw [instanceAt?, nodeAt?, Option.bind_assoc, Option.bind_eq_some_iff]
  rfl

def IsStandardised (a : Argument) : Prop :=
  ∀ p q r r', p ≠ q → a.instanceAt? p = some r → a.instanceAt? q = some r' → r.Disjoint r'

def Within (lo hi : ℕ) (a : Argument) : Prop :=
  ∀ p r, a.instanceAt? p = some r → ∀ v ∈ r.occurrences, lo ≤ v.id ∧ v.id < hi

def Separate (a b : Argument) : Prop :=
  ∀ p q r r', a.instanceAt? p = some r → b.instanceAt? q = some r' → r.Disjoint r'

theorem Within.mono (h : a.Within mid hi) {lo' hi' : ℕ} (hlo : lo' ≤ mid) (hhi : hi ≤ hi') :
    a.Within lo' hi' :=
  fun p r hr v hv ↦ (h p r hr v hv).imp hlo.trans fun hlt ↦ hlt.trans_le hhi

theorem Within.separate (ha : a.Within lo mid) (hb : b.Within mid hi) : Separate a b := by
  intro p q r r' hr hr' v hv w hw
  have hlt := (ha p r hr v hv).2
  have hge := (hb q r' hr' w hw).1
  omega

structure SpreadAll (lo hi : ℕ) (as : List Argument) : Prop where
  within : ∀ a ∈ as, a.Within lo hi
  standardised : ∀ a ∈ as, a.IsStandardised
  separate : as.Pairwise Separate

theorem spreadAll_nil (lo hi : ℕ) : SpreadAll lo hi [] where
  within a h := by cases h
  standardised a h := by cases h
  separate := .nil

theorem SpreadAll.mono (h : SpreadAll lo mid as) (hle : mid ≤ hi) : SpreadAll lo hi as where
  within a ha := (h.within a ha).mono le_rfl hle
  standardised := h.standardised
  separate := h.separate

theorem SpreadAll.push (h : SpreadAll lo mid as) (hlo : lo ≤ mid) (hhi : mid ≤ hi)
    (ha : a.Within mid hi) (hstandardised : a.IsStandardised) : SpreadAll lo hi (as ++ [a]) where
  within := by
    intro b hb
    rcases List.mem_append.mp hb with hb | hb
    · exact (h.within b hb).mono le_rfl hhi
    · rw [List.mem_singleton.mp hb]
      exact ha.mono hlo le_rfl
  standardised := by
    intro b hb
    rcases List.mem_append.mp hb with hb | hb
    · exact h.standardised b hb
    · rwa [List.mem_singleton.mp hb]
  separate := by
    refine List.pairwise_append.mpr ⟨h.separate, List.pairwise_singleton _ _, fun b hb c hc ↦ ?_⟩
    rw [List.mem_singleton.mp hc]
    exact (h.within b hb).separate ha

theorem within_of_subs
    (hroot : ∀ r, a.instanceAt? [] = some r → ∀ v ∈ r.occurrences, lo ≤ v.id ∧ v.id < mid)
    (h : SpreadAll mid hi a.subs) (hlo : lo ≤ mid) (hhi : mid ≤ hi) : a.Within lo hi := by
  intro p r hr
  cases p with
  | nil => exact fun v hv ↦ (hroot r hr v hv).imp_right fun hlt ↦ hlt.trans_le hhi
  | cons i p =>
    obtain ⟨b, hb, hr⟩ := instanceAt?_cons.mp hr
    exact ((h.within b (List.mem_of_getElem? hb)).mono hlo le_rfl) p r hr

/-- The sub-arguments have variables of their own, and the root has those made before. -/
theorem isStandardised_of_subs
    (hroot : ∀ r, a.instanceAt? [] = some r → ∀ v ∈ r.occurrences, lo ≤ v.id ∧ v.id < mid)
    (h : SpreadAll mid hi a.subs) : a.IsStandardised := by
  have hbelow {i : ℕ} {p : List ℕ} {r r' : Rule} (hr : a.instanceAt? [] = some r)
      (hr' : a.instanceAt? (i :: p) = some r') : r.Disjoint r' := by
    obtain ⟨b, hb, hr'⟩ := instanceAt?_cons.mp hr'
    intro v hv w hw
    have hlt := (hroot r hr v hv).2
    have hge := (h.within b (List.mem_of_getElem? hb) p r' hr' w hw).1
    omega
  have hseparate {i j : ℕ} (hij : i < j) {b c : Argument} (hb : a.subs[i]? = some b)
      (hc : a.subs[j]? = some c) : Separate b c := by
    obtain ⟨hi, rfl⟩ := List.getElem?_eq_some_iff.mp hb
    obtain ⟨hj, rfl⟩ := List.getElem?_eq_some_iff.mp hc
    exact List.pairwise_iff_getElem.mp h.separate i j hi hj hij
  intro p q r r' hne hr hr'
  cases p with
  | nil =>
    cases q with
    | nil => exact absurd rfl hne
    | cons j q => exact hbelow hr hr'
  | cons i p =>
    cases q with
    | nil => exact (hbelow hr' hr).symm
    | cons j q =>
      obtain ⟨b, hb, hr⟩ := instanceAt?_cons.mp hr
      obtain ⟨c, hc, hr'⟩ := instanceAt?_cons.mp hr'
      rcases Nat.lt_trichotomy i j with hij | rfl | hij
      · exact hseparate hij hb hc p q r r' hr hr'
      · obtain rfl := Option.some.inj (hb.symm.trans hc)
        exact h.standardised b (List.mem_of_getElem? hb) p q r r' (fun heq ↦ hne (by rw [heq])) hr
          hr'
      · exact (hseparate hij hc hb q p r' r hr' hr).symm

end Argument

namespace Theory

open Argumentation.Flow (Noting Persists)

variable {t : Theory} {p : Position} {s : Substitution} {lo n : ℕ}

/-- An argument whose instances were made from a number on, when all from another one on are
free. -/
structure Spread (lo n : ℕ) (a : Argument) : Prop where
  below : Below n a.substitution
  within : a.Within lo n
  standardised : a.IsStandardised

structure SpreadList (lo n : ℕ) (l : ArgumentList) : Prop where
  below : Below n l.substitution
  spread : Argument.SpreadAll lo n l.arguments
  le : lo ≤ n

theorem persists_spread : Persists (Spread lo) :=
  fun _ _ _ hle h ↦ ⟨h.below.mono hle, h.within.mono le_rfl hle, h.standardised⟩

theorem persists_spreadList : Persists (SpreadList lo) :=
  fun _ _ _ hle h ↦ ⟨h.below.mono hle, h.spread.mono hle, h.le.trans hle⟩

theorem SpreadList.empty (hs : Below n s) : SpreadList n n (.empty s) :=
  ⟨hs, Argument.spreadAll_nil n n, le_rfl⟩

theorem SpreadList.push {l : ArgumentList} (h : SpreadList lo n l) {m : ℕ} (hm : n ≤ m)
    {a : Argument} (ha : Spread n m a) : SpreadList lo m (l.push a) :=
  ⟨ha.below, h.spread.push h.le hm ha.within ha.standardised, h.le.trans hm⟩

theorem spread_of_subs {a : Argument} {mid : ℕ} (ha : Below n a.substitution)
    (hroot : ∀ r, a.instanceAt? [] = some r → ∀ v ∈ r.occurrences, lo ≤ v.id ∧ v.id < mid)
    (hsubs : Argument.SpreadAll mid n a.subs) (hlo : lo ≤ mid) (hhi : mid ≤ n) : Spread lo n a :=
  ⟨ha, Argument.within_of_subs hroot hsubs hlo hhi, Argument.isStandardised_of_subs hroot hsubs⟩

theorem evaluated_spread (hs : Below n s) (hle : lo ≤ n) (goal : Term) :
    (Flow.evaluated p goal s).Throughout (Spread lo) n := by
  refine fun id ↦ .pure (spread_of_subs hs ?_ (Argument.spreadAll_nil n n) hle le_rfl)
  intro r hr
  exact absurd rfl (Argument.instanceAt?_nil.mp hr).1

theorem conclude_spread (r : Rule) {base : ℕ} (hlo : lo ≤ base) {l : ArgumentList}
    (hl : SpreadList (base + r.allVars.length) n l) :
    (t.conclude p (r.renameApart base) l).Throughout (Spread lo) n := by
  rw [conclude]
  split
  · refine fun id ↦ .pure (spread_of_subs hl.below ?_ hl.spread ?_ hl.le)
    · intro r' hr
      obtain ⟨-, rfl⟩ := Argument.instanceAt?_nil.mp hr
      exact fun v hv ↦ (r.numbered_renameApart base v hv).imp_left hlo.trans
    · exact hlo.trans (Nat.le_add_right base _)
  · trivial

abbrev Freshly {α : Type} (t : Theory) (P : ℕ → α → Prop) : ℕ → Expansion ⊕ α → Prop :=
  Noting (Expansion.IsFresh t.store) P

def TracesFresh (t : Theory)
    (arguments : Substitution → Term → Flow (Expansion ⊕ Argument)) : Prop :=
  ∀ n u e, Below n u → Below n e →
    (arguments u e).Throughout (t.Freshly (Spread n)) n

variable {arguments : Substitution → Term → Flow (Expansion ⊕ Argument)}
  {below : Position → Substitution → Term → Flow (Expansion ⊕ Argument)}

theorem TracesFresh.lists (h : t.TracesFresh arguments) {es : List Term} {l : ArgumentList}
    (hl : SpreadList lo n l) (hes : ∀ e ∈ es, Below n e) :
    (traceLists arguments es l).Throughout (t.Freshly (SpreadList lo)) n := by
  induction es generalizing l n with
  | nil => exact .pure hl
  | cons e es ih =>
    refine (h n l.substitution e hl.below (hes e (.head _))).andThen persists_spread ?_
    exact fun m a hm ha ↦ ih (hl.push hm ha) fun e' he' ↦ (hes e' (.tail _ he')).mono hm

theorem TracesFresh.rule (h : ∀ q, t.TracesFresh (below q)) (hs : Below n s) {literal : Term}
    (hliteral : Below n literal) (hlo : lo ≤ n) {r : Rule} (hr : r ∈ t.store.rules) :
    (t.traceRule below p s literal r).Throughout (t.Freshly (Spread lo)) n := by
  rw [traceRule]
  split
  · trivial
  intro base hbase
  refine ⟨Expansion.isFresh_of_below hr hs hliteral hbase, ?_⟩
  rw [traceExpansion]
  dsimp only
  split
  · trivial
  have hle : n ≤ base + r.allVars.length := hbase.trans (Nat.le_add_right base _)
  have hinstance := r.below_renameApart base
  have hunified := Substitution.below_unify (hs.mono hle) (Rule.below_consequent hinstance)
    (hliteral.mono hle)
  refine ((h _).lists (.empty hunified) (Rule.below_antecedent hinstance)).andThen
    persists_spreadList fun m l hm hl ↦ ?_
  exact (conclude_spread r (hlo.trans hbase) hl).silent persists_spread

theorem traceSettle_fresh {lookup attempt : Term → Flow (Expansion ⊕ Argument)} (hs : Below n s)
    {goal : Term} (hgoal : Below n goal)
    (hlookup : ∀ literal, Below n literal →
      (lookup literal).Throughout (t.Freshly (Spread n)) n)
    (hattempt : ∀ inner, Below n inner →
      (attempt inner).Throughout (t.Freshly (Spread n)) n) :
    (traceSettle lookup attempt p s goal).Throughout (t.Freshly (Spread n)) n := by
  rw [traceSettle]
  cases hsettlement : settlement s goal with
  | unsolved => trivial
  | evaluated u =>
    have hu : Below n u := isBelow_of_settlement hs hgoal hsettlement
    exact (evaluated_spread hu le_rfl goal).silent persists_spread
  | lookup literal => exact hlookup literal (isBelow_of_settlement hs hgoal hsettlement)
  | absent inner =>
    refine (hattempt inner (isBelow_of_settlement hs hgoal hsettlement)).unlessFound fun m hm ↦ ?_
    exact (evaluated_spread (hs.mono hm) hm goal).silent persists_spread

theorem traceBeyond_fresh (k : ℕ) {goal : Term} (hs : Below n s) (hgoal : Below n goal) :
    (traceBeyond k p s goal).Throughout (t.Freshly (Spread n)) n := by
  induction k generalizing p goal with
  | zero => trivial
  | succ k ih =>
    refine traceSettle_fresh hs hgoal (fun literal _ ↦ trivial) fun inner hinner ↦ ?_
    exact ih (Substitution.below_apply hs hinner)

/-- A search makes fresh instances only, and finds arguments whose instances have been made since it
began. -/
theorem traceSolve_fresh (levels : ℕ) {goal : Term} (hs : Below n s) (hgoal : Below n goal) :
    (t.traceSolve levels p s goal).Throughout (t.Freshly (Spread n)) n := by
  induction levels generalizing n p s goal with
  | zero => exact traceBeyond_fresh _ hs hgoal
  | succ levels ih =>
    have hbelow (q : Position) : t.TracesFresh fun u e ↦ t.traceSolve levels q u (u.apply e) :=
      fun n u e hu he ↦ ih hu (Substitution.below_apply hu he)
    refine traceSettle_fresh hs hgoal (fun literal hliteral ↦ ?_) (hbelow _ n s · hs)
    split
    · trivial
    · exact .concat fun r hr m hm ↦ TracesFresh.rule hbelow (hs.mono hm) (hliteral.mono hm) hm
        (RuleStore.mem_of_mem_candidates hr)

theorem traceUnder_fresh (t : Theory) (m : Threshold) :
    t.TracesFresh fun u e ↦ t.traceUnder u m e :=
  fun _ _ _ hu he ↦ traceSolve_fresh _ hu (Substitution.below_apply hu he)

/-- What holds of all that is found in a search on record holds of all that the search gives. -/
theorem toList_of_throughout {α : Type} {N : Expansion → Prop} {P : α → Prop} {f : Flow α}
    {trace : Flow (Expansion ⊕ α)} (hfound : trace.found = f)
    (h : trace.Throughout (Noting N fun _ ↦ P) n) {supply : Supply}
    (hsupply : n ≤ supply.freeVariable) : ∀ a ∈ (f.toList supply).1, P a := by
  have hall : trace.Throughout (fun _ ↦ Sum.elim N P) n :=
    h.imp fun _ x _ hx ↦ by cases x <;> exact hx
  intro a ha
  rw [← hfound] at ha
  exact hall.toList hsupply _ (Flow.mem_toList_found ha)

/-- An instance is the image of its rule under a renaming that is one to one and leads to the
variables made for the instance. So whatever numbers a search takes, all from a bound on that the
variables of the goal and of the bindings are below, each expansion is by an instance of a stored
rule without any variable of the literal and of the bindings that it is made for, and no two
instances in one of the arguments found have a variable in common. -/
theorem instances_standardised (t : Theory) (m : Threshold) :
    (∀ (r : Rule) (base : ℕ), ∃ f : Variable → Variable, r.renameApart base = r.rename f ∧
      (∀ v ∈ r.allVars, base ≤ (f v).id ∧ (f v).id < base + r.allVars.length) ∧
      ∀ v ∈ r.allVars, ∀ w ∈ r.allVars, (f v).id = (f w).id → v = w) ∧
    ∀ (n : ℕ) (s : Substitution), (∀ v ∈ s.occurrences, v.id < n) →
      (∀ e : Term, (∀ v ∈ e.occurrences, v.id < n) →
        (t.traceUnder s m e).found = t.argumentsUnder s m e ∧
        (t.traceUnder s m e).Throughout
          (Noting (Expansion.IsFresh t.store) fun _ a ↦ a.IsStandardised) n ∧
        ∀ supply : Supply, n ≤ supply.freeVariable →
          ∀ a ∈ ((t.argumentsUnder s m e).toList supply).1, a.IsStandardised) ∧
      ∀ es : List Term, (∀ e ∈ es, ∀ v ∈ e.occurrences, v.id < n) →
        let trace := traceLists (fun u e ↦ t.traceUnder u m e) es (.empty s)
        let search := lists (fun u e ↦ t.argumentsUnder u m e) es (.empty s)
        trace.found = search ∧
        trace.Throughout
          (Noting (Expansion.IsFresh t.store) fun _ l ↦ ∀ a ∈ l.arguments, a.IsStandardised) n ∧
        ∀ supply : Supply, n ≤ supply.freeVariable →
          ∀ l ∈ (search.toList supply).1, ∀ a ∈ l.arguments, a.IsStandardised := by
  refine ⟨fun r base ↦ r.exists_renaming base, fun n s hs ↦ ⟨fun e he ↦ ?_, fun es hes ↦ ?_⟩⟩
  · have hfound := t.found_traceUnder s m e
    have hfresh : (t.traceUnder s m e).Throughout
        (Noting (Expansion.IsFresh t.store) fun _ a ↦ a.IsStandardised) n := by
      refine (t.traceUnder_fresh m n s e (Substitution.below_iff.mpr hs)
        (Term.below_iff.mpr he)).imp fun _ x _ hx ↦ ?_
      cases x with
      | inl x => exact hx
      | inr a => exact hx.standardised
    exact ⟨hfound, hfresh, fun supply ↦ toList_of_throughout hfound hfresh⟩
  · intro trace search
    have hfound : trace.found = search := found_traceUnder_lists t m es _
    have hfresh : trace.Throughout
        (Noting (Expansion.IsFresh t.store) fun _ l ↦ ∀ a ∈ l.arguments, a.IsStandardised) n := by
      refine ((t.traceUnder_fresh m).lists (.empty (Substitution.below_iff.mpr hs))
        fun e he ↦ Term.below_iff.mpr (hes e he)).imp fun _ x _ hx ↦ ?_
      cases x with
      | inl x => exact hx
      | inr l => exact hx.spread.standardised
    exact ⟨hfound, hfresh, fun supply ↦ toList_of_throughout hfound hfresh⟩

def pile : Theory :=
  let x := Term.var ⟨"X", 1⟩
  let y := Term.var ⟨"Y", 2⟩
  let z := Term.var ⟨"Z", 3⟩
  ofRules .weakestLink [.plain (.literal "on" [.const "a", .const "b"]) [] .one,
    .plain (.literal "on" [.const "b", .const "c"]) [] .one,
    .plain (.literal "above" [x, y]) [.literal "on" [x, y]] .one,
    .plain (.literal "top" [x, z]) [.literal "above" [x, y], .literal "above" [y, z]] .one]

def bottom : Term :=
  .literal "top" [.const "a", .var ⟨"W", 4⟩]

theorem pile_standardised :
    let trace := pile.traceUnder .empty 0 bottom
    let search := pile.argumentsUnder .empty 0 bottom
    (trace.toList ⟨5, 1⟩).1.countP Sum.isLeft = 7 ∧
    ((search.toList ⟨5, 1⟩).1.map fun a ↦ a.addresses.filterMap fun p ↦
        (a.instanceAt? p).map fun r ↦ r.allVars.map (·.id)) =
      [[[5, 6, 7], [8, 9], [10, 11], [], []]] ∧
    trace.found = search ∧
    trace.Throughout (Noting (Expansion.IsFresh pile.store) fun _ a ↦ a.IsStandardised) 5 ∧
    (∀ a ∈ (search.toList ⟨5, 1⟩).1, a.IsStandardised) ∧
    ∀ l ∈ ((pile.argumentLists 0 [bottom, bottom]).toList ⟨5, 1⟩).1,
      ∀ a ∈ l.arguments, a.IsStandardised := by
  intro trace search
  have hgoal : ∀ v ∈ bottom.occurrences, v.id < 5 := by decide +kernel
  have hgoals : ∀ e ∈ [bottom, bottom], ∀ v ∈ e.occurrences, v.id < 5 := by decide +kernel
  obtain ⟨hsingle, hlists⟩ := (instances_standardised pile 0).2 5 .empty nofun
  obtain ⟨hfound, hthroughout, hdrained⟩ := hsingle bottom hgoal
  exact ⟨by decide +kernel, by decide +kernel, hfound, hthroughout, hdrained ⟨5, 1⟩ le_rfl,
    (hlists [bottom, bottom] hgoals).2.2 ⟨5, 1⟩ le_rfl⟩

end Theory

end Argumentation
