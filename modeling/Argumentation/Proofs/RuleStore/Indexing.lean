import Argumentation.Engine
import Mathlib.Data.List.Nodup
import Mathlib.Data.List.Perm.Basic

namespace Argumentation

namespace RuleIndex

variable {κ : Type}

def entries (ix : RuleIndex κ) : List (κ × RuleId) :=
  ix.flatMap fun (k, ids) ↦ ids.map (k, ·)

theorem entries_push [DecidableEq κ] (k : κ) (id : RuleId) (ix : RuleIndex κ) :
    (ix.push k id).entries.Perm ((k, id) :: ix.entries) := by
  induction ix with
  | nil => rfl
  | cons group ix ih =>
    obtain ⟨k', ids⟩ := group
    rw [push]
    split
    · rename_i hk
      subst hk
      simp only [entries, List.flatMap_cons, List.map_append, List.map_cons, List.map_nil,
        List.append_assoc]
      exact List.perm_middle
    · simp only [entries, List.flatMap_cons] at ih ⊢
      exact (ih.append_left _).trans List.perm_middle

theorem entries_trim (rest : κ → List RuleId → List RuleId) (ix : RuleIndex κ) :
    entries (ix.filterMap fun (k, ids) ↦
      if (rest k ids).isEmpty then none else some (k, rest k ids)) =
      ix.flatMap fun (k, ids) ↦ (rest k ids).map (k, ·) := by
  induction ix with
  | nil => rfl
  | cons group ix ih =>
    obtain ⟨k, ids⟩ := group
    rw [List.flatMap_cons, ← ih, List.filterMap_cons]
    cases hrest : rest k ids with
    | nil => simp only [hrest, List.isEmpty_nil, if_true, List.map_nil, List.nil_append]
    | cons id ids' =>
      simp only [hrest, List.isEmpty_cons, Bool.false_eq_true, if_false]
      exact List.flatMap_cons

theorem entries_drop [DecidableEq κ] (k : κ) (id : RuleId) (ix : RuleIndex κ) :
    (ix.drop k id).entries = ix.entries.filter (· ≠ (k, id)) := by
  have htrim := entries_trim (fun k' ids ↦ if k' = k then ids.filter (· != id) else ids) ix
  refine htrim.trans ?_
  rw [entries, List.filter_flatMap]
  refine List.flatMap_congr fun group _ ↦ ?_
  obtain ⟨k', ids⟩ := group
  dsimp only
  rw [List.filter_map]
  by_cases hk : k' = k
  · rw [if_pos hk]
    congr 2
    funext i
    rw [Bool.eq_iff_iff]
    simp [hk]
  · rw [if_neg hk, List.filter_eq_self.mpr]
    intro i _
    simp [hk]

end RuleIndex

def Rule.entry? (r : Rule) : Option ((Predicate × Nat) × RuleId) :=
  r.consequent.predicate?.map fun p ↦ ((p, r.antecedent.length), r.id)

/-- The rules have ids of their own, and each one that has a predicate has one entry. -/
structure RuleStore.Indexed (s : RuleStore) : Prop where
  id_lt : ∀ r ∈ s.rules, r.id < s.nextId
  nodup : (s.rules.map Rule.id).Nodup
  entries : s.conclusions.entries.Perm (s.rules.filterMap Rule.entry?)

namespace RuleStore

variable {s : RuleStore}

theorem indexed_empty (transposing : Bool) : (empty transposing).Indexed :=
  ⟨by simp [empty], .nil, .nil⟩

theorem Indexed.congr {s' : RuleStore} (h : s.Indexed) (hrules : s'.rules = s.rules)
    (hconclusions : s'.conclusions = s.conclusions) (hnext : s'.nextId = s.nextId) :
    s'.Indexed := by
  refine ⟨?_, ?_, ?_⟩
  · rw [hrules, hnext]
    exact h.id_lt
  · rw [hrules]
    exact h.nodup
  · rw [hrules, hconclusions]
    exact h.entries

theorem Indexed.withGenerated (h : s.Indexed) (generated : RuleIndex RuleId) :
    RuleStore.Indexed { s with generated } :=
  h.congr rfl rfl rfl

theorem Indexed.withTransposing (h : s.Indexed) (transposing : Bool) :
    RuleStore.Indexed { s with transposing } :=
  h.congr rfl rfl rfl

theorem Indexed.eq_of_id (h : s.Indexed) {r r' : Rule} (hr : r ∈ s.rules) (hr' : r' ∈ s.rules)
    (hid : r.id = r'.id) : r = r' :=
  List.inj_on_of_nodup_map h.nodup hr hr' hid

theorem Indexed.rule?_eq_some (h : s.Indexed) {r : Rule} (hr : r ∈ s.rules) :
    s.rule? r.id = some r := by
  cases hfound : s.rule? r.id with
  | none =>
    have hnone := List.find?_eq_none.mp hfound r hr
    simp at hnone
  | some r' =>
    have hid : r'.id = r.id := by simpa using List.find?_some hfound
    rw [h.eq_of_id (List.mem_of_find?_eq_some hfound) hr hid]

theorem indexName_eq (s : RuleStore) (r : Rule) : ∃ names, s.indexName r = { s with names } := by
  rw [indexName]
  split
  · exact ⟨_, rfl⟩
  · exact ⟨s.names, rfl⟩

theorem unindexName_eq (s : RuleStore) (r : Rule) :
    ∃ names, s.unindexName r = { s with names } := by
  rw [unindexName]
  split
  · exact ⟨_, rfl⟩
  · exact ⟨s.names, rfl⟩

theorem rules_unindexName (s : RuleStore) (r : Rule) : (s.unindexName r).rules = s.rules := by
  obtain ⟨names, hnames⟩ := s.unindexName_eq r
  rw [hnames]

theorem Indexed.insert (h : s.Indexed) (r : Rule) (origin : Origin) :
    (s.insert r origin).Indexed := by
  obtain ⟨names, hnames⟩ := s.indexName_eq { r with id := s.nextId, origin }
  rw [RuleStore.insert, hnames]
  refine ⟨?_, ?_, ?_⟩
  · intro r' hr'
    rcases List.mem_append.mp hr' with hr' | hr'
    · exact Nat.lt_succ_of_lt (h.id_lt r' hr')
    · rw [List.mem_singleton.mp hr']
      exact Nat.lt_succ_self _
  · rw [List.map_append, List.map_singleton]
    refine List.Nodup.append h.nodup (List.nodup_singleton _) ?_
    simp only [List.disjoint_singleton, List.mem_map, not_exists, not_and]
    exact fun r' hr' ↦ Nat.ne_of_lt (h.id_lt r' hr')
  · rw [List.filterMap_append]
    dsimp only
    cases hpredicate : r.consequent.predicate? with
    | none =>
      have hentry : List.filterMap Rule.entry? [{ r with id := s.nextId, origin }] = [] := by
        simp [Rule.entry?, hpredicate]
      rw [hentry, List.append_nil]
      exact h.entries
    | some p =>
      have hentry : List.filterMap Rule.entry? [{ r with id := s.nextId, origin }] =
          [((p, r.antecedent.length), s.nextId)] := by
        simp [Rule.entry?, hpredicate]
      rw [hentry]
      exact (RuleIndex.entries_push _ _ _).trans
        ((h.entries.cons _).trans (List.perm_append_singleton _ _).symm)

theorem mem_filterMap_entry {rules : List Rule} {e : (Predicate × Nat) × RuleId}
    (he : e ∈ rules.filterMap Rule.entry?) : ∃ r ∈ rules, r.entry? = some e ∧ r.id = e.2 := by
  obtain ⟨r, hr, hentry⟩ := List.mem_filterMap.mp he
  refine ⟨r, hr, hentry, ?_⟩
  obtain ⟨p, -, rfl⟩ := Option.map_eq_some_iff.mp hentry
  rfl

theorem Indexed.entry?_eq_some (h : s.Indexed) {r : Rule} (hr : r ∈ s.rules)
    {e : (Predicate × Nat) × RuleId} (he : e ∈ s.conclusions.entries) (hid : e.2 = r.id) :
    r.entry? = some e := by
  obtain ⟨r', hr', hentry, hid'⟩ := mem_filterMap_entry (h.entries.mem_iff.mp he)
  rw [h.eq_of_id hr hr' (hid.symm.trans hid'.symm)]
  exact hentry

theorem Indexed.detach (h : s.Indexed) (id : RuleId) : (s.detach id).Indexed := by
  cases hr : s.rule? id with
  | none =>
    rw [RuleStore.detach, hr]
    exact h
  | some r =>
    have hmem : r ∈ s.rules := List.mem_of_find?_eq_some hr
    have hid : r.id = id := by simpa using List.find?_some hr
    obtain ⟨names, hnames⟩ := s.unindexName_eq r
    simp only [RuleStore.detach, hr, hnames]
    refine ⟨?_, ?_, ?_⟩
    · exact fun r' hr' ↦ h.id_lt r' (List.mem_filter.mp hr').1
    · exact h.nodup.sublist (List.filter_sublist.map Rule.id)
    · have hrest : (s.rules.filter (·.id != id)).filterMap Rule.entry? =
          (s.rules.filterMap Rule.entry?).filter (·.2 != id) := by
        rw [List.filterMap_filter, List.filter_filterMap]
        refine List.filterMap_congr fun r' _ ↦ ?_
        rw [Rule.entry?]
        cases r'.consequent.predicate? <;> simp [Option.filter]
      dsimp only
      rw [hrest]
      refine List.Perm.trans ?_ (h.entries.filter _)
      -- The only entry with the id is that of the rule, if the rule has one.
      have hentry (e : (Predicate × Nat) × RuleId) (he : e ∈ s.conclusions.entries)
          (heid : e.2 = id) : r.entry? = some e := h.entry?_eq_some hmem he (heid.trans hid.symm)
      cases hpredicate : r.consequent.predicate? with
      | none =>
        rw [List.filter_eq_self.mpr]
        intro e he
        rw [bne_iff_ne]
        intro heid
        have := hentry e he heid
        simp [Rule.entry?, hpredicate] at this
      | some p =>
        rw [RuleIndex.entries_drop]
        refine List.Perm.of_eq (List.filter_congr fun e he ↦ ?_)
        rw [Bool.eq_iff_iff, decide_eq_true_iff, bne_iff_ne, not_iff_not]
        refine ⟨fun heq ↦ by rw [heq], fun heid ↦ ?_⟩
        have := hentry e he heid
        simpa [Rule.entry?, hpredicate, hid, eq_comm] using this

theorem Indexed.foldl_detach (h : s.Indexed) (ids : List RuleId) :
    (ids.foldl RuleStore.detach s).Indexed := by
  induction ids generalizing s with
  | nil => exact h
  | cons id ids ih => exact ih (h.detach id)

theorem Indexed.addHook (h : s.Indexed) (id : RuleId) : (s.addHook id).Indexed := by
  rw [RuleStore.addHook]
  split
  · split
    · exact h.insert _ _
    · exact h
  · exact h

theorem Indexed.replace (h : s.Indexed) {r : Rule} (hr : r ∈ s.rules) (renamed : Rule)
    (hid : renamed.id = r.id) (hentry : renamed.entry? = r.entry?) :
    RuleStore.Indexed
      { s with rules := s.rules.map fun x ↦ if x.id = r.id then renamed else x } := by
  have hsame {β : Type} (f : Rule → β) (hf : f renamed = f r) (x : Rule) (hx : x ∈ s.rules) :
      f (if x.id = r.id then renamed else x) = f x := by
    split
    · rename_i hxid
      rw [hf, h.eq_of_id hx hr hxid]
    · rfl
  refine ⟨?_, ?_, ?_⟩
  · intro x hx
    obtain ⟨y, hy, rfl⟩ := List.mem_map.mp hx
    rw [hsame Rule.id hid y hy]
    exact h.id_lt y hy
  · rw [List.map_map]
    exact (List.map_congr_left (hsame Rule.id hid)).symm ▸ h.nodup
  · rw [List.filterMap_map]
    exact h.entries.trans (.of_eq (List.filterMap_congr (hsame Rule.entry? hentry)).symm)

theorem Indexed.rename (h : s.Indexed) (id : RuleId) : (s.rename id).Indexed := by
  cases hr : s.rule? id with
  | none =>
    rw [RuleStore.rename, hr]
    exact h
  | some r =>
    have hmem : r ∈ s.rules := List.mem_of_find?_eq_some hr
    have hid : r.id = id := by simpa using List.find?_some hr
    subst hid
    obtain ⟨names, hnames⟩ := s.unindexName_eq r
    simp only [RuleStore.rename, hr, takeName, hnames]
    obtain ⟨names', hnames'⟩ := RuleStore.indexName_eq
      { s with names, nextName := s.nextName + skippedNames { s with names } r + 1 }
      (r.withAutoName (autoName (s.nextName + skippedNames { s with names } r) r))
    rw [hnames']
    have hreplaced := h.replace hmem
      (r.withAutoName (autoName (s.nextName + skippedNames { s with names } r) r)) rfl rfl
    split
    · refine Indexed.addHook (Indexed.withGenerated (Indexed.foldl_detach ?_ _) _) _
      exact hreplaced.congr rfl rfl rfl
    · exact hreplaced.congr rfl rfl rfl

theorem Indexed.foldl_rename (h : s.Indexed) (ids : List RuleId) :
    (ids.foldl RuleStore.rename s).Indexed := by
  induction ids generalizing s with
  | nil => exact h
  | cons id ids ih => exact ih (h.rename id)

theorem Indexed.dropGenerated (h : s.Indexed) (r : Rule) : (s.dropGenerated r).Indexed := by
  rw [RuleStore.dropGenerated]
  split
  · exact (h.detach r.id).withGenerated _
  · exact h.detach r.id

theorem Indexed.transpose (h : s.Indexed) (source : Rule) : (s.transpose source).Indexed := by
  rw [RuleStore.transpose]
  generalize source.contrapositives = rules
  induction rules generalizing s with
  | nil => exact h
  | cons r rules ih =>
    refine ih ?_
    dsimp only
    split
    · exact h
    · exact (h.congr rfl rfl rfl : (s.takeName r).2.Indexed).insert _ _

theorem Indexed.transposeAll (h : s.Indexed) (sources : List Rule) :
    (s.transposeAll sources).Indexed := by
  rw [RuleStore.transposeAll]
  induction sources generalizing s with
  | nil => exact h
  | cons r sources ih => exact ih (h.transpose r)

theorem Indexed.settleName (h : s.Indexed) {r named : Rule} {ids : List RuleId} {s' : RuleStore}
    (hsettle : s.settleName r = .ok (named, ids, s')) : s'.Indexed := by
  rw [RuleStore.settleName] at hsettle
  split at hsettle
  · split at hsettle
    · cases hsettle
    · split at hsettle
      · cases hsettle
      · cases hdisplaced : s.displaced _ with
        | error e =>
          rw [hdisplaced] at hsettle
          cases hsettle
        | ok ids' =>
          rw [hdisplaced] at hsettle
          cases hsettle
          exact h
  · split at hsettle
    · cases hsettle
      exact h
    · cases hsettle
      exact h.congr rfl rfl rfl

/-- A named rule with its hook and its contrapositives, in place of the names that give way to it.
-/
theorem Indexed.install (h : s.Indexed) (named : Rule) (ids : List RuleId) :
    RuleStore.Indexed
      (let s₃ := ids.foldl RuleStore.rename (s.insert named .user)
      let s₄ := if named.isFact then s₃ else s₃.addHook s.nextId
      if s₄.transposing then s₄.transposeAll (s₄.rule? s.nextId).toList else s₄) := by
  have h₃ := (h.insert named .user).foldl_rename ids
  generalize ids.foldl RuleStore.rename (s.insert named .user) = s₃ at h₃ ⊢
  have h₄ : RuleStore.Indexed (if named.isFact then s₃ else s₃.addHook s.nextId) := by
    split
    · exact h₃
    · exact h₃.addHook _
  dsimp only
  generalize (if named.isFact then s₃ else s₃.addHook s.nextId) = s₄ at h₄ ⊢
  split
  · exact h₄.transposeAll _
  · exact h₄

theorem Indexed.add (h : s.Indexed) {r : Rule} {id : RuleId} {s' : RuleStore}
    (hadd : s.add r = .ok (id, s')) : s'.Indexed := by
  rw [RuleStore.add] at hadd
  split at hadd
  · cases hadd
  · cases hsettle : s.settleName r with
    | error e =>
      rw [hsettle] at hadd
      cases hadd
    | ok settled =>
      obtain ⟨named, ids, s₁⟩ := settled
      rw [hsettle] at hadd
      cases hadd
      have h₁ := h.settleName hsettle
      refine Indexed.install ?_ named ids
      split
      · exact h₁.dropGenerated _
      · exact h₁

theorem Indexed.remove (h : s.Indexed) {id : RuleId} {r : Rule} {s' : RuleStore}
    (hremove : s.remove id = .ok (r, s')) : s'.Indexed := by
  rw [RuleStore.remove] at hremove
  split at hremove
  · cases hremove
  · split at hremove
    · cases hremove
    · cases hremove
      have hdetached :=
        ((h.withGenerated (s.generated.erase id)).foldl_detach (s.generatedFrom id)).detach id
      split
      · exact hdetached.transposeAll _
      · exact hdetached

theorem Indexed.setTransposing (h : s.Indexed) (on : Bool) : (s.setTransposing on).Indexed := by
  rw [RuleStore.setTransposing]
  split
  · exact h
  · dsimp only
    split
    · exact (h.withTransposing on).transposeAll _
    · exact ((h.withTransposing on).foldl_detach _).withGenerated _

/-- The stores that come about by the operations on them. -/
inductive Reachable : RuleStore → Prop
  | empty (transposing : Bool) : Reachable (.empty transposing)
  | add {s s' : RuleStore} {r : Rule} {id : RuleId} :
      Reachable s → s.add r = .ok (id, s') → Reachable s'
  | remove {s s' : RuleStore} {r : Rule} {id : RuleId} :
      Reachable s → s.remove id = .ok (r, s') → Reachable s'
  | setTransposing {s : RuleStore} (on : Bool) : Reachable s → Reachable (s.setTransposing on)

theorem Reachable.removeMatching {s' : RuleStore} {r r' : Rule} (h : s.Reachable)
    (hremove : s.removeMatching r = .ok (r', s')) : s'.Reachable := by
  rw [RuleStore.removeMatching] at hremove
  split at hremove
  · exact h.remove hremove
  · cases hremove

theorem Reachable.indexed (h : s.Reachable) : s.Indexed := by
  induction h with
  | empty transposing => exact indexed_empty transposing
  | add _ hadd ih => exact ih.add hadd
  | remove _ hremove ih => exact ih.remove hremove
  | setTransposing on _ ih => exact ih.setTransposing on

theorem ids_of_groups (ix : RuleIndex (Predicate × Nat)) (p : Predicate) :
    (ix.filter (·.1.1 == p)).flatMap (·.2) = (ix.entries.filter (·.1.1 == p)).map (·.2) := by
  induction ix with
  | nil => rfl
  | cons group ix ih =>
    obtain ⟨k, ids⟩ := group
    have hentries : RuleIndex.entries ((k, ids) :: ix) =
        ids.map (k, ·) ++ RuleIndex.entries ix :=
      List.flatMap_cons
    rw [hentries, List.filter_append, List.map_append, ← ih, List.filter_map]
    by_cases hk : k.1 = p <;> simp [hk, Function.comp_def]

/-- The candidates for a goal are the rules that conclude its predicate, each of them once. -/
theorem Indexed.candidates_perm (h : s.Indexed) {goal : Term} {p : Predicate}
    (hp : goal.predicate? = some p) :
    (s.candidates goal).Perm (s.rules.filter (·.consequent.predicate? = some p)) := by
  have hfilter : (s.rules.filterMap Rule.entry?).filter (·.1.1 == p) =
      (s.rules.filter (·.consequent.predicate? = some p)).filterMap Rule.entry? := by
    rw [List.filter_filterMap, List.filterMap_filter]
    refine List.filterMap_congr fun r _ ↦ ?_
    rw [Rule.entry?]
    cases r.consequent.predicate? with
    | none => simp
    | some q => by_cases hq : q = p <;> simp [hq, Option.filter]
  have hids : ((s.rules.filter (·.consequent.predicate? = some p)).filterMap Rule.entry?).map
      (·.2) = (s.rules.filter (·.consequent.predicate? = some p)).map Rule.id := by
    rw [List.map_filterMap, ← List.filterMap_eq_map]
    refine List.filterMap_congr fun r hr ↦ ?_
    have hpredicate : r.consequent.predicate? = some p := by simpa using (List.mem_filter.mp hr).2
    simp [Rule.entry?, hpredicate]
  have hrules : ((s.rules.filter (·.consequent.predicate? = some p)).map Rule.id).filterMap
      s.rule? = s.rules.filter (·.consequent.predicate? = some p) := by
    rw [List.filterMap_map]
    conv => rhs; rw [← List.filterMap_some (l := s.rules.filter _)]
    exact List.filterMap_congr fun r hr ↦ h.rule?_eq_some (List.mem_filter.mp hr).1
  simp only [candidates, hp]
  refine (((List.mergeSort_perm _ _).flatMap_right _).filterMap _).trans ?_
  rw [ids_of_groups]
  refine (((h.entries.filter _).map _).filterMap _).trans ?_
  rw [hfilter, hids, hrules]

end RuleStore

theorem Engine.addAll_reachable {e : Engine} (h : e.store.Reachable) (rules : List Rule) :
    (e.addAll rules).2.store.Reachable := by
  induction rules generalizing e with
  | nil => exact h
  | cons r rules ih =>
    rw [Engine.addAll]
    cases hadd : e.add r with
    | error err => exact h
    | ok added =>
      refine ih ?_
      rw [Engine.add] at hadd
      split at hadd
      · cases hadd
        exact h.add ‹_›
      · cases hadd

end Argumentation
