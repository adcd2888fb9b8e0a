import Argumentation.Proofs.RuleStore.Hooks
import Argumentation.Proofs.RuleStore.Names
import Argumentation.Proofs.RuleStore.Predicates

namespace Argumentation

namespace RuleIndex

variable {κ : Type} {ix : RuleIndex κ}

def Ascending (ix : RuleIndex κ) : Prop :=
  ∀ group ∈ ix, group.2 ≠ [] ∧ group.2.Pairwise (· < ·)

theorem entries_cons (k : κ) (ids : List RuleId) (ix : RuleIndex κ) :
    entries ((k, ids) :: ix) = ids.map (k, ·) ++ entries ix :=
  List.flatMap_cons

theorem Keyed.eq_of_mem (h : ix.Keyed) {k : κ} {ids ids' : List RuleId} (hmem : (k, ids) ∈ ix)
    (hmem' : (k, ids') ∈ ix) : ids = ids' :=
  congrArg Prod.snd (List.inj_on_of_nodup_map h hmem hmem' rfl)

variable [DecidableEq κ]

theorem Ascending.push (h : ix.Ascending) (k : κ) {id : RuleId} (hid : ∀ e ∈ ix.entries, e.2 < id) :
    (ix.push k id).Ascending := by
  induction ix with
  | nil =>
    intro group hgroup
    rw [List.mem_singleton.mp hgroup]
    exact ⟨List.cons_ne_nil _ _, List.pairwise_singleton _ _⟩
  | cons first ix ih =>
    obtain ⟨k', ids⟩ := first
    obtain ⟨hfirst, hrest⟩ := List.forall_mem_cons.mp h
    rw [entries_cons] at hid
    have hids : ∀ i ∈ ids, i < id := fun i hi ↦
      hid (k', i) (List.mem_append_left _ (List.mem_map.mpr ⟨i, hi, rfl⟩))
    rw [RuleIndex.push]
    split
    · refine List.forall_mem_cons.mpr ⟨⟨by simp, ?_⟩, hrest⟩
      rw [List.pairwise_append]
      refine ⟨hfirst.2, List.pairwise_singleton _ _, fun i hi j hj ↦ ?_⟩
      rw [List.mem_singleton.mp hj]
      exact hids i hi
    · exact List.forall_mem_cons.mpr
        ⟨hfirst, ih hrest fun e he ↦ hid e (List.mem_append_right _ he)⟩

theorem Ascending.drop (h : ix.Ascending) (k : κ) (id : RuleId) : (ix.drop k id).Ascending := by
  intro group hgroup
  refine ⟨trimmed_drop k id ix group hgroup, ?_⟩
  obtain ⟨⟨k', ids⟩, hmem, hrest⟩ := List.mem_filterMap.mp hgroup
  rw [Option.ite_none_left_eq_some] at hrest
  cases hrest.2
  dsimp only
  split
  · exact (h _ hmem).2.sublist List.filter_sublist
  · exact (h _ hmem).2

theorem Keyed.ids_eq (h : ix.Keyed) (k : κ) :
    ix.ids k = (ix.entries.filter (·.1 = k)).map Prod.snd := by
  induction ix with
  | nil => rfl
  | cons first ix ih =>
    obtain ⟨k', ids'⟩ := first
    obtain ⟨hk', hrest⟩ := List.nodup_cons.mp h
    have hix : RuleIndex.Keyed ix := hrest
    rw [entries_cons, List.filter_append, List.map_append, List.filter_map, ← ih hix, ids,
      List.lookup_cons]
    by_cases hk : k = k'
    · subst hk
      have hnone : RuleIndex.ids ix k = [] := by
        refine List.eq_nil_iff_forall_not_mem.mpr fun id hid ↦ ?_
        obtain ⟨ids, hmem, -⟩ := mem_entries.mp (hix.mem_ids.mp hid)
        exact hk' (List.mem_map.mpr ⟨_, hmem, rfl⟩)
      simp [hnone, Function.comp_def]
    · simp [beq_false_of_ne hk, Ne.symm hk, Function.comp_def, ids]

end RuleIndex

namespace RuleStore

variable {s s' : RuleStore} {p : Rule → Prop}

theorem ascending_insert (hs : s.Indexed) (h : s.conclusions.Ascending) (r : Rule)
    (origin : Origin) : (s.insert r origin).conclusions.Ascending := by
  rw [insert]
  dsimp only
  split
  · refine h.push _ fun e he ↦ ?_
    obtain ⟨r', hr', -, hid⟩ := mem_filterMap_entry (hs.entries.mem_iff.mp he)
    rw [← hid]
    exact hs.id_lt r' hr'
  · exact h

theorem ascending_change (hs : s.Indexed) (h : s.conclusions.Ascending)
    (hchange : Change p s s') : s'.conclusions.Ascending := by
  cases hchange with
  | aside _ hconclusions =>
    rw [hconclusions]
    exact h
  | user => exact ascending_insert hs h _ _
  | hook => exact ascending_insert hs h _ _
  | @transposition source c _ _ =>
    have hnamed : (s.takeName c).2.Indexed := hs.congr rfl rfl rfl
    exact ascending_insert hnamed h _ _
  | detach =>
    rw [detach]
    split
    · exact h
    · dsimp only
      split
      · exact h.drop _ _
      · exact h
  | @retitle r _ _ =>
    obtain ⟨nextName, heq⟩ := s.retitle_eq r
    rw [heq]
    exact h

theorem ReachableBy.ascending (h : s.ReachableBy p) : s.conclusions.Ascending :=
  h.of_changes (fun _ _ hgroup ↦ by cases hgroup) fun _ _ hs ha ↦ ascending_change hs ha

theorem Indexed.of_group (h : s.Indexed) {p : Predicate} {n : ℕ} {ids : List RuleId}
    (hgroup : ((p, n), ids) ∈ s.conclusions) {id : RuleId} (hid : id ∈ ids) {r : Rule}
    (hr : s.rule? id = some r) :
    r.id = id ∧ r.consequent.predicate? = some p ∧ r.antecedent.length = n := by
  obtain ⟨hmem, rfl⟩ := of_rule? hr
  have hentry := h.entry?_eq_some hmem (RuleIndex.mem_entries.mpr ⟨ids, hgroup, hid⟩) rfl
  rw [Rule.entry?, Option.map_eq_some_iff] at hentry
  obtain ⟨q, hq, heq⟩ := hentry
  cases heq
  exact ⟨rfl, hq, rfl⟩

/-- The groups of a predicate in the order in which candidates are taken from them. -/
theorem mem_groups {ix : RuleIndex (Predicate × ℕ)} {p : Predicate}
    {group : (Predicate × ℕ) × List RuleId}
    (hgroup : group ∈ (ix.filter (·.1.1 == p)).mergeSort fun a b ↦ a.1.2 ≤ b.1.2) :
    group ∈ ix ∧ group.1.1 = p := by
  have hmem := List.mem_filter.mp ((List.mergeSort_perm _ _).mem_iff.mp hgroup)
  exact ⟨hmem.1, beq_iff_eq.mp hmem.2⟩

/-- Groups of one predicate have different lengths, as their keys are different. -/
theorem pairwise_groups {ix : RuleIndex (Predicate × ℕ)} (h : ix.Keyed) (p : Predicate) :
    ((ix.filter (·.1.1 == p)).mergeSort fun a b ↦ a.1.2 ≤ b.1.2).Pairwise
      fun a b ↦ a.1.2 < b.1.2 := by
  have hle : ((ix.filter (·.1.1 == p)).mergeSort fun a b ↦ a.1.2 ≤ b.1.2).Pairwise
      fun a b ↦ decide (a.1.2 ≤ b.1.2) = true := by
    refine List.pairwise_mergeSort (fun a b c hab hbc ↦ ?_) (fun a b ↦ ?_) _
    · rw [decide_eq_true_iff] at hab hbc ⊢
      omega
    · rw [Bool.or_eq_true, decide_eq_true_iff, decide_eq_true_iff]
      omega
  have hne : ((ix.filter (·.1.1 == p)).mergeSort fun a b ↦ a.1.2 ≤ b.1.2).Pairwise
      (·.1 ≠ ·.1) := by
    refine List.pairwise_map.mp (List.Nodup.perm ?_ ((List.mergeSort_perm _ _).map _).symm)
    exact h.sublist (List.filter_sublist.map Prod.fst)
  refine (hle.and hne).imp_of_mem fun ha hb ⟨hle, hne⟩ ↦ ?_
  have hpredicate := (mem_groups ha).2.trans (mem_groups hb).2.symm
  exact lt_of_le_of_ne (of_decide_eq_true hle) fun heq ↦ hne (Prod.ext hpredicate heq)

/-- Rules with shorter antecedents first, and older ones before younger ones. -/
def Precedes (r r' : Rule) : Prop :=
  r.antecedent.length < r'.antecedent.length ∨
    r.antecedent.length = r'.antecedent.length ∧ r.id < r'.id

theorem Coherent.candidates_precede (h : s.Coherent) (ha : s.conclusions.Ascending) (goal : Term) :
    (s.candidates goal).Pairwise Precedes := by
  rw [candidates]
  split
  · rw [List.pairwise_filterMap, List.pairwise_flatMap]
    refine ⟨fun g hg ↦ ?_, (pairwise_groups h.keyed _).imp_of_mem ?_⟩
    · have hgroup := (mem_groups hg).1
      refine (ha g hgroup).2.imp_of_mem ?_
      intro i j hi hj hlt r hr r' hr'
      obtain ⟨rfl, -, hlength⟩ := h.of_group hgroup hi hr
      obtain ⟨rfl, -, hlength'⟩ := h.of_group hgroup hj hr'
      exact .inr ⟨hlength.trans hlength'.symm, hlt⟩
    · intro g g' hg hg' hlt i hi j hj r hr r' hr'
      have hlength := (h.of_group (mem_groups hg).1 hi hr).2.2
      have hlength' := (h.of_group (mem_groups hg').1 hj hr').2.2
      exact .inl (hlength.trans_lt (hlt.trans_eq hlength'.symm))
  · exact .nil

theorem Indexed.exists_group (h : s.Indexed) {r : Rule} (hr : r ∈ s.rules) {p : Predicate}
    (hp : r.consequent.predicate? = some p) :
    ∃ ids, ((p, r.antecedent.length), ids) ∈ s.conclusions ∧ r.id ∈ ids := by
  rw [← RuleIndex.mem_entries, h.entries.mem_iff, List.mem_filterMap]
  exact ⟨r, hr, by rw [Rule.entry?, hp]; rfl⟩

theorem Indexed.exists_of_group (h : s.Indexed) {p : Predicate} {n : ℕ} {ids : List RuleId}
    (hgroup : ((p, n), ids) ∈ s.conclusions) {id : RuleId} (hid : id ∈ ids) :
    ∃ r ∈ s.rules, r.id = id ∧ r.consequent.predicate? = some p ∧ r.antecedent.length = n := by
  have hentry := RuleIndex.mem_entries.mpr ⟨ids, hgroup, hid⟩
  obtain ⟨r, hr, -, hrid⟩ := mem_filterMap_entry (h.entries.mem_iff.mp hentry)
  obtain rfl : r.id = id := hrid
  exact ⟨r, hr, h.of_group hgroup hid (h.rule?_eq_some hr)⟩

theorem Coherent.group_eq (h : s.Coherent) (ha : s.conclusions.Ascending) {p : Predicate} {n : ℕ}
    {ids : List RuleId} (hgroup : ((p, n), ids) ∈ s.conclusions) {slice : List Rule}
    (hmem : ∀ r, r ∈ slice ↔
      r ∈ s.rules ∧ r.consequent.predicate? = some p ∧ r.antecedent.length = n)
    (hslice : slice.Pairwise (·.id < ·.id)) : ids = slice.map Rule.id := by
  refine (ha _ hgroup).2.eq_of_mem_iff (List.pairwise_map.mpr hslice) fun id ↦ ?_
  rw [List.mem_map]
  constructor
  · intro hid
    obtain ⟨r, hr, hrid, hrest⟩ := h.exists_of_group hgroup hid
    exact ⟨r, (hmem r).mpr ⟨hr, hrest⟩, hrid⟩
  · rintro ⟨r, hr, rfl⟩
    obtain ⟨hr, hp, rfl⟩ := (hmem r).mp hr
    obtain ⟨ids', hgroup', hid⟩ := h.exists_group hr hp
    rwa [h.keyed.eq_of_mem hgroup hgroup']

theorem Coherent.rulesFor_eq (h : s.Coherent) (ha : s.conclusions.Ascending) {goal : Term}
    {p : Predicate} (hp : goal.predicate? = some p) (n : ℕ) :
    s.rulesFor p n = match (s.candidates goal).filter (·.antecedent.length = n) with
      | [] => .error (.noRulesFor p.functor p.arity n)
      | slice => .ok slice := by
  have hmem (r : Rule) : r ∈ (s.candidates goal).filter (·.antecedent.length = n) ↔
      r ∈ s.rules ∧ r.consequent.predicate? = some p ∧ r.antecedent.length = n := by
    rw [List.mem_filter, (h.candidates_perm hp).mem_iff, List.mem_filter, decide_eq_true_iff,
      decide_eq_true_iff, and_assoc]
  have hslice : ((s.candidates goal).filter (·.antecedent.length = n)).Pairwise (·.id < ·.id) := by
    refine ((h.candidates_precede ha goal).sublist List.filter_sublist).imp_of_mem ?_
    intro r r' hr hr' hprecedes
    have hlength := ((hmem r).mp hr).2.2
    have hlength' := ((hmem r').mp hr').2.2
    obtain hlt | ⟨-, hlt⟩ := hprecedes
    · omega
    · exact hlt
  generalize (s.candidates goal).filter (·.antecedent.length = n) = slice at hmem hslice ⊢
  rw [rulesFor]
  cases hlookup : s.conclusions.lookup (p, n) with
  | none =>
    have hnil : slice = [] := by
      refine List.eq_nil_iff_forall_not_mem.mpr fun r hr ↦ ?_
      obtain ⟨hr, hp', rfl⟩ := (hmem r).mp hr
      obtain ⟨ids, hgroup, -⟩ := h.exists_group hr hp'
      simpa using List.lookup_eq_none_iff.mp hlookup _ hgroup
    rw [hnil]
  | some ids =>
    have hgroup : ((p, n), ids) ∈ s.conclusions := by
      obtain ⟨l₁, l₂, hsplit, -⟩ := List.lookup_eq_some_iff.mp hlookup
      rw [hsplit]
      exact List.mem_append_right _ (.head _)
    have heq := h.group_eq ha hgroup hmem hslice
    have hrules : ids.filterMap s.rule? = slice := by
      rw [heq, List.filterMap_map]
      conv => rhs; rw [← List.filterMap_some (l := slice)]
      exact List.filterMap_congr fun r hr ↦ h.rule?_eq_some ((hmem r).mp hr).1
    dsimp only
    rw [hrules]
    cases slice with
    | nil => exact absurd heq (ha _ hgroup).1
    | cons r rest => rfl

/-- Each generated rule is listed once under the rule that it comes from. -/
theorem Coherent.generatedFrom_perm (h : s.Coherent) (id : RuleId) :
    (s.generatedFrom id).Perm ((s.rules.filter (·.origin.source? = some id)).map Rule.id) := by
  rw [generatedFrom, h.generatedKeyed.ids_eq]
  refine ((h.generated.filter _).map _).trans (.of_eq ?_)
  rw [List.filter_filterMap, List.map_filterMap, ← List.filterMap_eq_map, List.filterMap_filter]
  refine List.filterMap_congr fun r _ ↦ ?_
  rw [Rule.generation?]
  cases hsource : r.origin.source? with
  | none => simp
  | some source => by_cases hid : source = id <;> simp [hid, Option.filter]

theorem Reachable.exists_source (h : s.Reachable) {g : Rule} (hg : g ∈ s.rules) {id : RuleId}
    (hid : g.origin.source? = some id) : ∃ S ∈ s.rules, S.id = id ∧ S.origin = .user := by
  cases horigin : g.origin with
  | user =>
    rw [horigin] at hid
    cases hid
  | hook source =>
    rw [horigin] at hid
    cases hid
    obtain ⟨-, -, x, hx, hxid, huser, -⟩ := h.hooked.asserted g hg id horigin
    exact ⟨x, hx, hxid, huser⟩
  | transposition source =>
    rw [horigin] at hid
    cases hid
    obtain ⟨S, hS, hSid, -⟩ := h.transposed.exists_strict hg horigin
    obtain ⟨⟨hS, huser⟩, -⟩ := mem_strictUserRules.mp hS
    exact ⟨S, hS, hSid, huser⟩

theorem Listed.names_perm (h : s.Listed) (p : Predicate) : (s.names.ids p).Perm
    ((s.rules.filter (·.name.bind Term.predicate? = some p)).map Rule.id) := by
  rw [h.namesKeyed.ids_eq]
  refine ((h.listed.filter _).map _).trans (.of_eq ?_)
  rw [List.filter_filterMap, List.map_filterMap, ← List.filterMap_eq_map, List.filterMap_filter]
  refine List.filterMap_congr fun r _ ↦ ?_
  rw [Rule.naming?]
  cases r.name.bind Term.predicate? with
  | none => simp
  | some q => by_cases hq : q = p <;> simp [hq, Option.filter]

theorem Listed.nodup_named (h : s.Listed) (t : Term) : (s.named t).Nodup := by
  rw [named]
  split
  · rename_i p _
    refine List.Nodup.filter _ ((h.names_perm p).nodup_iff.mpr ?_)
    exact h.nodup.sublist (List.filter_sublist.map Rule.id)
  · exact .nil

/-- What is looked up is what a search of all rules finds. -/
structure Faithful (s : RuleStore) : Prop where
  /-- The candidates for a goal are the rules that conclude its predicate, each of them once. -/
  candidates_perm : ∀ goal p, goal.predicate? = some p →
    (s.candidates goal).Perm (s.rules.filter (·.consequent.predicate? = some p))
  candidates_precede : ∀ goal, (s.candidates goal).Pairwise Precedes
  /-- The rules for a predicate and a length are a slice of the candidates, if it is not empty. -/
  rulesFor_eq : ∀ goal p, goal.predicate? = some p → ∀ n,
    s.rulesFor p n = match (s.candidates goal).filter (·.antecedent.length = n) with
      | [] => .error (.noRulesFor p.functor p.arity n)
      | slice => .ok slice
  isRuleName_iff : ∀ t, t.isLiteral = true →
    (s.isRuleName t = true ↔ ∃ r ∈ s.rules, ∃ n, r.name = some n ∧ n.unifies t = true)
  generatedFrom_perm : ∀ id,
    (s.generatedFrom id).Perm ((s.rules.filter (·.origin.source? = some id)).map Rule.id)
  generatedFrom_nodup : ∀ id, (s.generatedFrom id).Nodup
  exists_source : ∀ id, s.generatedFrom id ≠ [] → ∃ r ∈ s.rules, r.id = id ∧ r.origin = .user
  contains_iff : ∀ p, s.catalogue.contains p = true ↔
    ∃ r ∈ s.rules, ∃ l ∈ r.consequent :: r.antecedent, l.predicate? = some p

/-- Whatever was added, removed and switched before, the indexes of a store are in step with its
rules. -/
theorem Reachable.lookups_faithful (h : s.Reachable) : s.Faithful := by
  have hcoherent := h.coherent
  have hascending := h.reachableBy.ascending
  refine ⟨fun goal p ↦ hcoherent.candidates_perm, hcoherent.candidates_precede hascending,
    fun goal p ↦ hcoherent.rulesFor_eq hascending, fun t ↦ h.reachableBy.listed.isRuleName_iff,
    hcoherent.generatedFrom_perm, fun id ↦ ?_, fun id hne ↦ ?_, fun p ↦ ?_⟩
  · refine (hcoherent.generatedFrom_perm id).nodup_iff.mpr ?_
    exact hcoherent.nodup.sublist (List.filter_sublist.map Rule.id)
  · obtain ⟨g, hg⟩ := List.exists_mem_of_ne_nil _ hne
    obtain ⟨r, hr, -, hsource⟩ := hcoherent.mem_generatedFrom.mp hg
    exact h.exists_source hr hsource
  · rw [h.reachableBy.tallied.contains]
    simp only [List.mem_flatMap, Rule.predicates, List.mem_filterMap]

def layered : RuleStore :=
  (Engine.addAll ⟨.default, .empty true⟩ [.plain (.const "p") [.const "q", .const "r"] .one,
    .plain (.const "p") [.const "s"] .one, .plain (.const "p") [] .one]).2.store

theorem layered_faithful :
    layered.rules.map Rule.text = ["p <- q, r.", "r1.", "~q <- ~p, r.", "~r <- ~p, q.",
      "p <- s.", "r4.", "~s <- ~p.", "p."] ∧
    layered.generatedFrom 1 = [2, 3, 4] ∧ layered.isRuleName (.const "r4") = true ∧
    layered.Faithful := by
  have hreachable : layered.Reachable := Engine.addAll_reachable (.empty true) _
  exact ⟨by decide +kernel, by decide +kernel, by decide +kernel, hreachable.lookups_faithful⟩

end RuleStore

end Argumentation
