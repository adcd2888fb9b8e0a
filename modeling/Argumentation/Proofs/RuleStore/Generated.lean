import Argumentation.Proofs.RuleStore.Indexing
import Argumentation.Proofs.Term.Variant

namespace Argumentation

namespace RuleIndex

variable {κ : Type} {ix : RuleIndex κ}

def Keyed (ix : RuleIndex κ) : Prop :=
  (ix.map Prod.fst).Nodup

theorem mem_entries {k : κ} {id : RuleId} :
    (k, id) ∈ ix.entries ↔ ∃ ids, (k, ids) ∈ ix ∧ id ∈ ids := by
  simp only [entries, List.mem_flatMap, List.mem_map, Prod.mk.injEq, Prod.exists]
  constructor
  · rintro ⟨k', ids, hmem, id', hid, rfl, rfl⟩
    exact ⟨ids, hmem, hid⟩
  · rintro ⟨ids, hmem, hid⟩
    exact ⟨k, ids, hmem, id, hid, rfl, rfl⟩

theorem Keyed.filterMap (h : ix.Keyed) {f : κ × List RuleId → Option (κ × List RuleId)}
    (hf : ∀ x y, f x = some y → y.1 = x.1) : Keyed (ix.filterMap f) := by
  refine h.sublist ?_
  induction ix with
  | nil => exact .slnil
  | cons x ix ih =>
    have hrest := ih (List.nodup_cons.mp h).2
    rw [List.filterMap_cons]
    split
    · exact hrest.cons _
    · rename_i y hy
      rw [List.map_cons, List.map_cons, hf x y hy]
      exact hrest.cons_cons _

theorem entries_dropAll (gone : List RuleId) (ix : RuleIndex κ) :
    (ix.dropAll gone).entries = ix.entries.filter fun e ↦ !gone.contains e.2 := by
  refine (entries_trim (fun _ ids ↦ ids.filter fun id ↦ !gone.contains id) ix).trans ?_
  rw [entries, List.filter_flatMap]
  refine List.flatMap_congr fun group _ ↦ ?_
  rw [List.filter_map]
  rfl

theorem Keyed.dropAll (h : ix.Keyed) (gone : List RuleId) : (ix.dropAll gone).Keyed := by
  refine h.filterMap fun x y hy ↦ ?_
  rw [Option.ite_none_left_eq_some] at hy
  rw [← Option.some.inj hy.2]

def Trimmed (ix : RuleIndex κ) : Prop :=
  ∀ group ∈ ix, group.2 ≠ []

theorem trimmed_filterMap (rest : κ → List RuleId → List RuleId) (ix : RuleIndex κ) :
    Trimmed (ix.filterMap fun (k, ids) ↦
      if (rest k ids).isEmpty then none else some (k, rest k ids)) := by
  intro group hgroup
  obtain ⟨⟨k, ids⟩, -, hrest⟩ := List.mem_filterMap.mp hgroup
  rw [Option.ite_none_left_eq_some] at hrest
  obtain ⟨hne, hrest⟩ := hrest
  cases hrest
  exact fun hnil ↦ hne (List.isEmpty_iff.mpr hnil)

theorem trimmed_dropAll (gone : List RuleId) (ix : RuleIndex κ) : (ix.dropAll gone).Trimmed :=
  trimmed_filterMap (fun _ ids ↦ ids.filter fun id ↦ !gone.contains id) ix

variable [DecidableEq κ]

theorem trimmed_drop (k : κ) (id : RuleId) (ix : RuleIndex κ) : (ix.drop k id).Trimmed :=
  trimmed_filterMap (fun k' ids ↦ if k' = k then ids.filter (· != id) else ids) ix

theorem Trimmed.foldl_drop (h : ix.Trimmed) (k : κ) (gone : List RuleId) :
    Trimmed (gone.foldl (fun g id ↦ g.drop k id) ix) := by
  induction gone generalizing ix with
  | nil => exact h
  | cons id gone ih => exact ih (trimmed_drop k id ix)

theorem Trimmed.erase (h : ix.Trimmed) (k : κ) : (ix.erase k).Trimmed :=
  fun group hgroup ↦ h group (List.mem_filter.mp hgroup).1

theorem Trimmed.push (h : ix.Trimmed) (k : κ) (id : RuleId) : (ix.push k id).Trimmed := by
  induction ix with
  | nil =>
    intro group hgroup
    rw [List.mem_singleton.mp hgroup]
    exact List.cons_ne_nil _ _
  | cons first ix ih =>
    obtain ⟨k', ids⟩ := first
    obtain ⟨hfirst, hrest⟩ := List.forall_mem_cons.mp h
    rw [RuleIndex.push]
    split
    · exact List.forall_mem_cons.mpr ⟨by simp, hrest⟩
    · exact List.forall_mem_cons.mpr ⟨hfirst, ih hrest⟩

theorem Keyed.push (h : ix.Keyed) (k : κ) (id : RuleId) : (ix.push k id).Keyed := by
  have hkeys (ix : RuleIndex κ) : (ix.push k id).map Prod.fst =
      if k ∈ ix.map Prod.fst then ix.map Prod.fst else ix.map Prod.fst ++ [k] := by
    induction ix with
    | nil => rfl
    | cons x ix ih =>
      obtain ⟨k', ids⟩ := x
      rw [RuleIndex.push]
      by_cases hk : k' = k
      · simp [hk]
      · rw [if_neg hk, List.map_cons, ih]
        split <;> simp_all [eq_comm]
  rw [Keyed, hkeys]
  split
  · exact h
  · exact List.Nodup.append h (List.nodup_singleton k) (List.disjoint_singleton.mpr ‹_›)

theorem Keyed.drop (h : ix.Keyed) (k : κ) (id : RuleId) : (ix.drop k id).Keyed := by
  refine h.filterMap fun x y hy ↦ ?_
  rw [Option.ite_none_left_eq_some] at hy
  rw [← Option.some.inj hy.2]

theorem Keyed.erase (h : ix.Keyed) (k : κ) : (ix.erase k).Keyed :=
  h.sublist (List.filter_sublist.map Prod.fst)

theorem entries_erase (k : κ) (ix : RuleIndex κ) :
    (ix.erase k).entries = ix.entries.filter (·.1 != k) := by
  rw [entries, entries, erase, List.filter_flatMap]
  induction ix with
  | nil => rfl
  | cons x ix ih =>
    obtain ⟨k', ids⟩ := x
    by_cases hk : k' = k
    · simp [hk, ih, List.filter_map, Function.comp_def]
    · have hall : ids.filter (fun _ ↦ k' != k) = ids := by simp [hk]
      simp [hk, ih, List.filter_map, Function.comp_def, hall]

theorem Keyed.mem_ids (h : ix.Keyed) {k : κ} {id : RuleId} :
    id ∈ ix.ids k ↔ (k, id) ∈ ix.entries := by
  rw [mem_entries, ids]
  induction ix with
  | nil => simp
  | cons x ix ih =>
    obtain ⟨k', ids'⟩ := x
    obtain ⟨hk', hix⟩ := List.nodup_cons.mp h
    by_cases hk : k = k'
    · subst hk
      have hne (ids : List RuleId) : (k, ids) ∉ ix := fun hmem ↦
        hk' (List.mem_map.mpr ⟨_, hmem, rfl⟩)
      simp [hne]
    · rw [List.lookup_cons, beq_false_of_ne hk, ih hix]
      simp [hk]

end RuleIndex

def Rule.generation? (r : Rule) : Option (RuleId × RuleId) :=
  r.origin.source?.map (·, r.id)

namespace RuleStore

variable {s : RuleStore}

section Effects

theorem rules_detach (s : RuleStore) (id : RuleId) :
    (s.detach id).rules = s.rules.filter (·.id != id) := by
  rw [detach]
  split
  · rename_i hnone
    refine (List.filter_eq_self.mpr fun r hr ↦ ?_).symm
    have hne := List.find?_eq_none.mp hnone r hr
    simpa using hne
  · obtain ⟨names, hnames⟩ := s.unindexName_eq ‹_›
    rw [hnames]

theorem detach_eq (s : RuleStore) (id : RuleId) : ∃ rules conclusions names catalogue,
    s.detach id = { s with rules, conclusions, names, catalogue } := by
  rw [detach]
  split
  · exact ⟨s.rules, s.conclusions, s.names, s.catalogue, rfl⟩
  · obtain ⟨names, hnames⟩ := s.unindexName_eq ‹_›
    rw [hnames]
    exact ⟨_, _, names, _, rfl⟩

theorem generated_detach (s : RuleStore) (id : RuleId) :
    (s.detach id).generated = s.generated := by
  obtain ⟨_, _, _, _, hdetach⟩ := s.detach_eq id
  rw [hdetach]

theorem transposing_detach (s : RuleStore) (id : RuleId) :
    (s.detach id).transposing = s.transposing := by
  obtain ⟨_, _, _, _, hdetach⟩ := s.detach_eq id
  rw [hdetach]

theorem keyed_detach (h : s.conclusions.Keyed) (id : RuleId) : (s.detach id).conclusions.Keyed := by
  rw [detach]
  split
  · exact h
  · dsimp only
    split
    · exact h.drop _ _
    · exact h

theorem rules_foldl_detach (s : RuleStore) (ids : List RuleId) :
    (ids.foldl detach s).rules = s.rules.filter fun r ↦ !ids.contains r.id := by
  induction ids generalizing s with
  | nil => simp
  | cons id ids ih =>
    rw [List.foldl_cons, ih, rules_detach, List.filter_filter]
    refine List.filter_congr fun r _ ↦ ?_
    rw [List.contains_cons, Bool.not_or, Bool.and_comm, bne]

theorem foldl_detach_eq (s : RuleStore) (ids : List RuleId) :
    ∃ rules conclusions names catalogue,
      ids.foldl detach s = { s with rules, conclusions, names, catalogue } := by
  induction ids generalizing s with
  | nil => exact ⟨s.rules, s.conclusions, s.names, s.catalogue, rfl⟩
  | cons id ids ih =>
    obtain ⟨rules, conclusions, names, catalogue, hdetach⟩ := s.detach_eq id
    obtain ⟨rules', conclusions', names', catalogue', hrest⟩ := ih (s.detach id)
    rw [List.foldl_cons, hrest, hdetach]
    exact ⟨rules', conclusions', names', catalogue', rfl⟩

theorem generated_foldl_detach (s : RuleStore) (ids : List RuleId) :
    (ids.foldl detach s).generated = s.generated := by
  obtain ⟨_, _, _, _, hrest⟩ := s.foldl_detach_eq ids
  rw [hrest]

theorem transposing_foldl_detach (s : RuleStore) (ids : List RuleId) :
    (ids.foldl detach s).transposing = s.transposing := by
  obtain ⟨_, _, _, _, hrest⟩ := s.foldl_detach_eq ids
  rw [hrest]

theorem keyed_foldl_detach (h : s.conclusions.Keyed) (ids : List RuleId) :
    (ids.foldl detach s).conclusions.Keyed := by
  induction ids generalizing s with
  | nil => exact h
  | cons id ids ih => exact ih (keyed_detach h id)

theorem detach_withGenerated (s : RuleStore) (generated : RuleIndex RuleId) (id : RuleId) :
    ({ s with generated } : RuleStore).detach id = { s.detach id with generated } := by
  have hrule : ({ s with generated } : RuleStore).rule? id = s.rule? id := rfl
  cases hr : s.rule? id with
  | none => simp only [detach, hrule, hr]
  | some r =>
    cases hname : r.name.bind Term.predicate? <;>
      simp only [detach, hrule, hr, unindexName, hname]

theorem foldl_detach_withGenerated (s : RuleStore) (generated : RuleIndex RuleId)
    (ids : List RuleId) :
    ids.foldl detach { s with generated } = { ids.foldl detach s with generated } := by
  induction ids generalizing s with
  | nil => rfl
  | cons id ids ih => rw [List.foldl_cons, detach_withGenerated, ih, List.foldl_cons]

/-- A rule that gets another name stays as it is otherwise; if it is a user's, its hooks leave and a
new one comes. -/
theorem rename_of_rule? {id : RuleId} {r : Rule} (hr : s.rule? id = some r) :
    ∃ (name : Term) (renamed : RuleStore),
      renamed.rules = s.rules.map (fun x ↦ if x.id = id then r.withAutoName name else x) ∧
      renamed.conclusions = s.conclusions ∧ renamed.generated = s.generated ∧
      renamed.transposing = s.transposing ∧ renamed.nextId = s.nextId ∧
      ∃ hooks : List RuleId, (∀ h ∈ hooks, h ∈ renamed.generatedFrom id ∧
          (renamed.rule? h).any (·.origin.isHook) = true) ∧
        s.rename id = if r.origin = .user then
          addHook { hooks.foldl detach renamed with
            generated := hooks.foldl (fun g h ↦ g.drop id h) renamed.generated } id
          else renamed := by
  obtain ⟨names, hnames⟩ := s.unindexName_eq r
  obtain ⟨names', hnames'⟩ := RuleStore.indexName_eq
    { s with names, nextName := s.nextName + skippedNames { s with names } r + 1 }
    (r.withAutoName (autoName (s.nextName + skippedNames { s with names } r) r))
  refine ⟨autoName (s.nextName + skippedNames { s with names } r) r, { s with
    rules := s.rules.map fun x ↦ if x.id = id then
      r.withAutoName (autoName (s.nextName + skippedNames { s with names } r) r) else x
    names := names'
    nextName := s.nextName + skippedNames { s with names } r + 1 }, rfl, rfl, rfl, rfl, rfl, _,
    fun _ ↦ List.mem_filter.mp, ?_⟩
  simp only [rename, hr, takeName, hnames, hnames', generated_foldl_detach]

theorem rules_insert (s : RuleStore) (r : Rule) (origin : Origin) :
    (s.insert r origin).rules = s.rules ++ [{ r with id := s.nextId, origin }] := by
  rw [insert]

theorem transposing_insert (s : RuleStore) (r : Rule) (origin : Origin) :
    (s.insert r origin).transposing = s.transposing := by
  obtain ⟨names, hnames⟩ := s.indexName_eq { r with id := s.nextId, origin }
  rw [insert, hnames]

end Effects

/-- The indexes have one group for each key, each generated rule has one entry, and hooks are facts.
-/
structure Coherent (s : RuleStore) : Prop extends s.Indexed where
  keyed : s.conclusions.Keyed
  generatedKeyed : s.generated.Keyed
  generated : s.generated.entries.Perm (s.rules.filterMap Rule.generation?)
  hooks : ∀ r ∈ s.rules, r.origin.isHook = true → r.isFact = true

theorem coherent_empty (transposing : Bool) : (empty transposing).Coherent :=
  { indexed_empty transposing with
    keyed := .nil
    generatedKeyed := .nil
    generated := .nil
    hooks := by simp [empty] }

theorem Coherent.congr {s' : RuleStore} (h : s.Coherent) (hrules : s'.rules = s.rules)
    (hconclusions : s'.conclusions = s.conclusions) (hgenerated : s'.generated = s.generated)
    (hnext : s'.nextId = s.nextId) : s'.Coherent := by
  refine { h.toIndexed.congr hrules hconclusions hnext with
    keyed := ?_, generatedKeyed := ?_, generated := ?_, hooks := ?_ }
  · rw [hconclusions]
    exact h.keyed
  · rw [hgenerated]
    exact h.generatedKeyed
  · rw [hgenerated, hrules]
    exact h.generated
  · rw [hrules]
    exact h.hooks

theorem Coherent.mem_generatedFrom (h : s.Coherent) {source id : RuleId} :
    id ∈ s.generatedFrom source ↔ ∃ r ∈ s.rules, r.id = id ∧ r.origin.source? = some source := by
  rw [generatedFrom, h.generatedKeyed.mem_ids, h.generated.mem_iff, List.mem_filterMap]
  simp only [Rule.generation?, Option.map_eq_some_iff, Prod.mk.injEq]
  constructor
  · rintro ⟨r, hr, _, hsource, rfl, rfl⟩
    exact ⟨r, hr, rfl, hsource⟩
  · rintro ⟨r, hr, rfl, hsource⟩
    exact ⟨r, hr, source, hsource, rfl, rfl⟩

theorem Coherent.generation?_eq_some (h : s.Coherent) {r : Rule} (hr : r ∈ s.rules)
    {e : RuleId × RuleId} (he : e ∈ s.generated.entries) (hid : e.2 = r.id) :
    r.generation? = some e := by
  obtain ⟨r', hr', hentry⟩ := List.mem_filterMap.mp (h.generated.mem_iff.mp he)
  obtain ⟨source, -, rfl⟩ := Option.map_eq_some_iff.mp hentry
  rw [h.eq_of_id hr hr' hid.symm]
  exact hentry

theorem Coherent.insert (h : s.Coherent) {r : Rule} {origin : Origin}
    (hhook : origin.isHook = true → r.isFact = true) : (s.insert r origin).Coherent := by
  refine { h.toIndexed.insert r origin with
    keyed := ?_, generatedKeyed := ?_, generated := ?_, hooks := ?_ }
  · rw [RuleStore.insert]
    dsimp only
    split
    · exact h.keyed.push _ _
    · exact h.keyed
  · rw [RuleStore.insert]
    dsimp only
    split
    · exact h.generatedKeyed.push _ _
    · exact h.generatedKeyed
  · rw [rules_insert, List.filterMap_append, RuleStore.insert]
    cases hsource : origin.source? with
    | none =>
      have hentry : List.filterMap Rule.generation? [{ r with id := s.nextId, origin }] = [] := by
        simp [Rule.generation?, hsource]
      rw [hentry, List.append_nil]
      exact h.generated
    | some source =>
      have hentry : List.filterMap Rule.generation? [{ r with id := s.nextId, origin }] =
          [(source, s.nextId)] := by
        simp [Rule.generation?, hsource]
      rw [hentry]
      exact (RuleIndex.entries_push _ _ _).trans
        ((h.generated.cons _).trans (List.perm_append_singleton _ _).symm)
  · rw [rules_insert]
    intro x hx
    rcases List.mem_append.mp hx with hx | hx
    · exact h.hooks x hx
    · rw [List.mem_singleton.mp hx]
      exact hhook

theorem Coherent.withdraw (h : s.Coherent) (ids : List RuleId) {generated : RuleIndex RuleId}
    (hkeyed : generated.Keyed)
    (hentries : generated.entries = s.generated.entries.filter fun e ↦ !ids.contains e.2) :
    RuleStore.Coherent { ids.foldl detach s with generated } := by
  refine { (h.toIndexed.foldl_detach ids).withGenerated generated with
    keyed := keyed_foldl_detach h.keyed ids, generatedKeyed := hkeyed, generated := ?_
    hooks := ?_ }
  swap
  · intro r hr
    have hmem : r ∈ (ids.foldl detach s).rules := hr
    rw [rules_foldl_detach] at hmem
    exact h.hooks r (List.mem_filter.mp hmem).1
  have hrest : (s.rules.filter fun r ↦ !ids.contains r.id).filterMap Rule.generation? =
      (s.rules.filterMap Rule.generation?).filter fun e ↦ !ids.contains e.2 := by
    rw [List.filterMap_filter, List.filter_filterMap]
    refine List.filterMap_congr fun r _ ↦ ?_
    rw [Rule.generation?]
    cases r.origin.source? <;> simp [Option.filter]
  show generated.entries.Perm ((ids.foldl detach s).rules.filterMap Rule.generation?)
  rw [rules_foldl_detach, hrest, hentries]
  exact h.generated.filter _

theorem Coherent.addHook (h : s.Coherent) (id : RuleId) : (s.addHook id).Coherent := by
  rw [RuleStore.addHook]
  split
  · split
    · exact h.insert fun _ ↦ rfl
    · exact h
  · exact h

theorem Coherent.replace (h : s.Coherent) {r : Rule} (hr : r ∈ s.rules) (name : Term) :
    RuleStore.Coherent
      { s with rules := s.rules.map fun x ↦ if x.id = r.id then r.withAutoName name else x } := by
  refine { h.toIndexed.replace hr (r.withAutoName name) rfl rfl with
    keyed := h.keyed, generatedKeyed := h.generatedKeyed, generated := ?_, hooks := ?_ }
  · dsimp only
    rw [List.filterMap_map]
    refine h.generated.trans (.of_eq (List.filterMap_congr fun x hx ↦ ?_))
    rw [Function.comp_apply]
    split
    · rename_i hxid
      rw [h.eq_of_id hx hr hxid]
      rfl
    · rfl
  · intro x hx
    obtain ⟨y, hy, rfl⟩ := List.mem_map.mp hx
    split
    · exact h.hooks r hr
    · exact h.hooks y hy

theorem Coherent.dropGenerated (h : s.Coherent) {r : Rule} (hr : r ∈ s.rules) :
    (s.dropGenerated r).Coherent := by
  have hwithdraw (generated : RuleIndex RuleId) (hkeyed : generated.Keyed)
      (hentries : generated.entries = s.generated.entries.filter (·.2 != r.id)) :
      RuleStore.Coherent { s.detach r.id with generated } := by
    refine h.withdraw [r.id] hkeyed (hentries.trans (List.filter_congr fun e _ ↦ ?_))
    rw [List.contains_cons, List.contains_nil, Bool.or_false, bne]
  rw [RuleStore.dropGenerated]
  split
  · rename_i source hsource
    rw [generated_detach]
    refine hwithdraw _ (h.generatedKeyed.drop _ _) ?_
    rw [RuleIndex.entries_drop]
    refine List.filter_congr fun e he ↦ ?_
    rw [Bool.eq_iff_iff, decide_eq_true_iff, bne_iff_ne, not_iff_not]
    refine ⟨fun heq ↦ by rw [heq], fun hid ↦ ?_⟩
    have hentry := h.generation?_eq_some hr he hid
    rw [Rule.generation?, hsource] at hentry
    exact (Option.some.inj hentry).symm
  · rename_i hsource
    have hdetached := hwithdraw s.generated h.generatedKeyed ?_
    · rwa [← generated_detach s r.id] at hdetached
    · refine (List.filter_eq_self.mpr fun e he ↦ ?_).symm
      rw [bne_iff_ne]
      intro hid
      have hentry := h.generation?_eq_some hr he hid
      rw [Rule.generation?, hsource] at hentry
      cases hentry

theorem entries_foldl_drop (source : RuleId) (ids : List RuleId) (ix : RuleIndex RuleId) :
    (ids.foldl (fun g id ↦ g.drop source id) ix).entries =
      ix.entries.filter fun e ↦ !(e.1 == source && ids.contains e.2) := by
  induction ids generalizing ix with
  | nil => simp
  | cons id ids ih =>
    rw [List.foldl_cons, ih, RuleIndex.entries_drop, List.filter_filter]
    refine List.filter_congr fun e _ ↦ ?_
    rw [Bool.eq_iff_iff]
    simp only [List.contains_cons, Bool.and_eq_true, Bool.not_eq_true', Bool.and_eq_false_iff,
      Bool.or_eq_false_iff, beq_eq_false_iff_ne, decide_eq_true_iff, ne_eq, Prod.ext_iff]
    tauto

theorem keyed_foldl_drop {ix : RuleIndex RuleId} (h : ix.Keyed) (source : RuleId)
    (ids : List RuleId) : (ids.foldl (fun g id ↦ g.drop source id) ix).Keyed := by
  induction ids generalizing ix with
  | nil => exact h
  | cons id ids ih => exact ih (h.drop _ _)

theorem Coherent.rename (h : s.Coherent) (id : RuleId) : (s.rename id).Coherent := by
  cases hr : s.rule? id with
  | none =>
    rw [RuleStore.rename, hr]
    exact h
  | some r =>
    have hmem : r ∈ s.rules := List.mem_of_find?_eq_some hr
    have hid : r.id = id := by simpa using List.find?_some hr
    subst hid
    obtain ⟨name, renamed, hrules, hconclusions, hgenerated, -, hnext, hooks, hhooks, heq⟩ :=
      rename_of_rule? hr
    have hrenamed : renamed.Coherent := (h.replace hmem name).congr
      hrules hconclusions hgenerated hnext
    rw [heq]
    split
    · refine Coherent.addHook (hrenamed.withdraw hooks
        (keyed_foldl_drop hrenamed.generatedKeyed _ _) ?_) _
      rw [entries_foldl_drop]
      -- An entry with the id of a hook is the hook's own one, which is under the rule.
      refine List.filter_congr fun e he ↦ ?_
      have hkey (hcontains : hooks.contains e.2 = true) : e.1 = r.id := by
        obtain ⟨x, hx, hxid, hsource⟩ :=
          hrenamed.mem_generatedFrom.mp (hhooks e.2 (List.contains_iff_mem.mp hcontains)).1
        have hentry := hrenamed.generation?_eq_some hx he hxid.symm
        rw [Rule.generation?, hsource] at hentry
        exact (congrArg Prod.fst (Option.some.inj hentry)).symm
      cases hcontains : hooks.contains e.2 with
      | false => rw [Bool.and_false]
      | true => rw [hkey hcontains, beq_self_eq_true, Bool.and_true]
    · exact hrenamed

theorem Coherent.foldl_rename (h : s.Coherent) (ids : List RuleId) :
    (ids.foldl RuleStore.rename s).Coherent := by
  induction ids generalizing s with
  | nil => exact h
  | cons id ids ih => exact ih (h.rename id)

theorem Coherent.takeName (h : s.Coherent) (r : Rule) : (s.takeName r).2.Coherent :=
  h.congr rfl rfl rfl rfl

theorem Coherent.transpose (h : s.Coherent) (source : Rule) : (s.transpose source).Coherent := by
  rw [RuleStore.transpose]
  generalize source.contrapositives = rules
  induction rules generalizing s with
  | nil => exact h
  | cons r rules ih =>
    refine ih ?_
    dsimp only
    split
    · exact h
    · exact (h.takeName r).insert fun hhook ↦ by cases hhook

theorem Coherent.transposeAll (h : s.Coherent) (sources : List Rule) :
    (s.transposeAll sources).Coherent := by
  rw [RuleStore.transposeAll]
  induction sources generalizing s with
  | nil => exact h
  | cons r sources ih => exact ih (h.transpose r)

/-- A name is settled without touching a rule, and the rule is the same but for it. -/
theorem settleName_cases {r named : Rule} {ids : List RuleId} {s' : RuleStore}
    (hsettle : s.settleName r = .ok (named, ids, s')) :
    (∃ nextName, s' = { s with nextName }) ∧
      (named = r ∨ ∃ name, named = r.withAutoName name) := by
  rw [RuleStore.settleName] at hsettle
  split at hsettle
  · split at hsettle
    · cases hsettle
    · split at hsettle
      · cases hsettle
      · cases hdisplaced : s.displaced _ with
        | error e =>
          rw [hdisplaced] at hsettle
          cases hsettle
        | ok ids' =>
          rw [hdisplaced] at hsettle
          cases hsettle
          exact ⟨⟨s.nextName, rfl⟩, .inl rfl⟩
  · split at hsettle
    · cases hsettle
      exact ⟨⟨s.nextName, rfl⟩, .inl rfl⟩
    · cases hsettle
      exact ⟨⟨_, rfl⟩, .inr ⟨_, rfl⟩⟩

theorem Coherent.settleName (h : s.Coherent) {r named : Rule} {ids : List RuleId} {s' : RuleStore}
    (hsettle : s.settleName r = .ok (named, ids, s')) : s'.Coherent := by
  obtain ⟨⟨nextName, rfl⟩, -⟩ := settleName_cases hsettle
  exact h.congr rfl rfl rfl rfl

/-- A user's rule without what was generated from it: one step for all of them. -/
theorem removed_eq (s : RuleStore) (id : RuleId) :
    ((s.generatedFrom id).foldl detach { s with generated := s.generated.erase id }).detach id =
      { (s.generatedFrom id ++ [id]).foldl detach s with generated := s.generated.erase id } := by
  rw [foldl_detach_withGenerated, detach_withGenerated, List.foldl_append]
  rfl

theorem Coherent.removed (h : s.Coherent) {id : RuleId} {r : Rule} (hr : s.rule? id = some r)
    (hsource : r.origin.source? = none) : RuleStore.Coherent
      (((s.generatedFrom id).foldl detach
        { s with generated := s.generated.erase id }).detach id) := by
  rw [removed_eq]
  refine h.withdraw _ (h.generatedKeyed.erase id) ?_
  rw [RuleIndex.entries_erase]
  refine List.filter_congr fun e he ↦ ?_
  rw [bne, Bool.eq_iff_iff, Bool.not_eq_true', Bool.not_eq_true', ← Bool.not_eq_true,
    ← Bool.not_eq_true, not_iff_not, beq_iff_eq, List.contains_iff_mem, List.mem_append,
    List.mem_singleton]
  constructor
  · intro hkey
    rw [generatedFrom, h.generatedKeyed.mem_ids, ← hkey]
    exact .inl he
  · rintro (hmem | hid)
    · obtain ⟨x, hx, hxid, hxsource⟩ := h.mem_generatedFrom.mp hmem
      have hentry := h.generation?_eq_some hx he hxid.symm
      rw [Rule.generation?, hxsource] at hentry
      exact (congrArg Prod.fst (Option.some.inj hentry)).symm
    · have hrid : r.id = id := by simpa using List.find?_some hr
      have hentry := h.generation?_eq_some (List.mem_of_find?_eq_some hr) he (hid.trans hrid.symm)
      rw [Rule.generation?, hsource] at hentry
      cases hentry

theorem Coherent.mem_similar (h : s.Coherent) {r r' : Rule} : r' ∈ s.similar r ↔ r' ∈ s.rules ∧
    (∃ p, r.consequent.predicate? = some p ∧ r'.consequent.predicate? = some p) ∧
    r'.antecedent.length = r.antecedent.length := by
  rw [similar]
  cases hpredicate : r.consequent.predicate? with
  | none => simp
  | some p =>
    simp only [List.mem_filterMap, h.keyed.mem_ids, h.entries.mem_iff, Rule.entry?,
      Option.map_eq_some_iff, Prod.mk.injEq, Option.some.injEq, exists_eq_left']
    constructor
    · rintro ⟨id, ⟨x, hx, q, hq, ⟨rfl, hlength⟩, rfl⟩, hfound⟩
      rw [h.rule?_eq_some hx] at hfound
      cases hfound
      exact ⟨hx, hq, hlength⟩
    · rintro ⟨hr', hp, hlength⟩
      exact ⟨r'.id, ⟨r', hr', p, hp, ⟨rfl, hlength⟩, rfl⟩, h.rule?_eq_some hr'⟩

theorem Coherent.of_find? (h : s.Coherent) {r found : Rule} {accept : Rule → Bool}
    (hfound : s.find? r accept = some found) :
    found ∈ s.rules ∧ accept found = true ∧ found.isVariant r = true := by
  have hmem := h.mem_similar.mp (List.mem_of_find?_eq_some hfound)
  have haccepted := List.find?_some hfound
  rw [Bool.and_eq_true] at haccepted
  exact ⟨hmem.1, haccepted⟩

/-- If none is found, no stored rule that would be accepted is a variant. -/
theorem Coherent.of_find?_none (h : s.Coherent) {r : Rule} {accept : Rule → Bool}
    (hnone : s.find? r accept = none) (hr : r.consequent.predicate?.isSome = true) {x : Rule}
    (hx : x ∈ s.rules) (haccept : accept x = true) : x.isVariant r = false := by
  rw [← Bool.not_eq_true]
  intro hvariant
  obtain ⟨p, hp⟩ := Option.isSome_iff_exists.mp hr
  obtain ⟨hpredicate, hlength⟩ := Rule.similar_of_isVariant hvariant
  have hmem := h.mem_similar.mpr ⟨hx, ⟨p, hp, hpredicate.trans hp⟩, hlength⟩
  have hrejected := List.find?_eq_none.mp hnone x hmem
  simp [haccept, hvariant] at hrejected

def enlarge (s : RuleStore) (named : Rule) (ids : List RuleId) : RuleStore :=
  let renamed := ids.foldl rename (s.insert named .user)
  if named.isFact then renamed else renamed.addHook s.nextId

theorem Coherent.enlarge (h : s.Coherent) (named : Rule) (ids : List RuleId) :
    (s.enlarge named ids).Coherent := by
  have hinserted : (s.insert named .user).Coherent := h.insert fun hhook ↦ by cases hhook
  have hrenamed := hinserted.foldl_rename ids
  rw [RuleStore.enlarge]
  split
  · exact hrenamed
  · exact hrenamed.addHook _

theorem Coherent.install (h : s.Coherent) (named : Rule) (ids : List RuleId) :
    RuleStore.Coherent
      (let enlarged := s.enlarge named ids
      if enlarged.transposing then enlarged.transposeAll (enlarged.rule? s.nextId).toList
        else enlarged) := by
  have henlarged := h.enlarge named ids
  dsimp only
  split
  · exact henlarged.transposeAll _
  · exact henlarged

theorem Coherent.add (h : s.Coherent) {r : Rule} {id : RuleId} {s' : RuleStore}
    (hadd : s.add r = .ok (id, s')) : s'.Coherent := by
  rw [RuleStore.add] at hadd
  split at hadd
  · cases hadd
  · cases hsettle : s.settleName r with
    | error e =>
      rw [hsettle] at hadd
      cases hadd
    | ok settled =>
      obtain ⟨named, ids, s₁⟩ := settled
      rw [hsettle] at hadd
      cases hadd
      have h₁ := h.settleName hsettle
      refine Coherent.install ?_ named ids
      split
      · rename_i transposed hfound
        exact h₁.dropGenerated (h₁.of_find? hfound).1
      · exact h₁

theorem Coherent.remove (h : s.Coherent) {id : RuleId} {r : Rule} {s' : RuleStore}
    (hremove : s.remove id = .ok (r, s')) : s'.Coherent := by
  rw [RuleStore.remove] at hremove
  split at hremove
  · cases hremove
  · rename_i hr
    split at hremove
    · cases hremove
    · rename_i hsource
      cases hremove
      split
      · exact (h.removed hr hsource).transposeAll _
      · exact h.removed hr hsource

theorem Coherent.setTransposing (h : s.Coherent) (on : Bool) :
    (s.setTransposing on).Coherent := by
  rw [RuleStore.setTransposing]
  split
  · exact h
  · have h₁ : RuleStore.Coherent { s with transposing := on } := h.congr rfl rfl rfl rfl
    dsimp only
    split
    · exact h₁.transposeAll _
    · refine h₁.withdraw _ (RuleIndex.Keyed.dropAll ?_ _) ?_
      · rw [generated_foldl_detach]
        exact h.generatedKeyed
      · rw [generated_foldl_detach, RuleIndex.entries_dropAll]

theorem Reachable.coherent (h : s.Reachable) : s.Coherent := by
  induction h with
  | empty transposing => exact coherent_empty transposing
  | add _ hadd ih => exact ih.add hadd
  | remove _ hremove ih => exact ih.remove hremove
  | setTransposing on _ ih => exact ih.setTransposing on

end RuleStore

end Argumentation
