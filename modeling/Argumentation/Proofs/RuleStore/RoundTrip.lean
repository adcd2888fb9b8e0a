import Argumentation.Proofs.RuleStore.Names
import Argumentation.Proofs.RuleStore.Predicates

namespace Argumentation

namespace RuleIndex

variable {κ : Type} {ix : RuleIndex κ}

theorem dropAll_eq_self (h : ix.Trimmed) {gone : List RuleId}
    (hgone : ∀ e ∈ ix.entries, e.2 ∉ gone) : ix.dropAll gone = ix := by
  conv => rhs; rw [← List.filterMap_some (l := ix)]
  refine List.filterMap_congr fun group hgroup ↦ ?_
  obtain ⟨k, ids⟩ := group
  have hkept : ids.filter (fun id ↦ !gone.contains id) = ids := by
    refine List.filter_eq_self.mpr fun id hid ↦ ?_
    have hnot := hgone (k, id) (mem_entries.mpr ⟨ids, hgroup, hid⟩)
    simpa using hnot
  have hne : ids.isEmpty = false := List.isEmpty_eq_false_iff.mpr (h _ hgroup)
  simp only [hkept, hne, Bool.false_eq_true, if_false]

theorem dropAll_cons (id : RuleId) (gone : List RuleId) (ix : RuleIndex κ) :
    ix.dropAll (id :: gone) = (ix.dropAll [id]).dropAll gone := by
  rw [dropAll, dropAll, dropAll, List.filterMap_filterMap]
  refine List.filterMap_congr fun group _ ↦ ?_
  obtain ⟨k, ids⟩ := group
  have hboth : ids.filter (fun i ↦ !(id :: gone).contains i) =
      (ids.filter fun i ↦ !List.contains [id] i).filter fun i ↦ !gone.contains i := by
    rw [List.filter_filter]
    refine List.filter_congr fun i _ ↦ ?_
    simp [Bool.and_comm]
  dsimp only
  rw [hboth]
  cases ids.filter fun i ↦ !List.contains [id] i with
  | nil => rfl
  | cons i rest => rfl

variable [DecidableEq κ]

theorem dropAll_push {id : RuleId} {gone : List RuleId} (hid : id ∈ gone) (k : κ)
    (ix : RuleIndex κ) : (ix.push k id).dropAll gone = ix.dropAll gone := by
  induction ix with
  | nil => simp [push, dropAll, hid]
  | cons first ix ih =>
    obtain ⟨k', ids⟩ := first
    rw [push]
    split
    · have hkept : (ids ++ [id]).filter (fun i ↦ !gone.contains i) =
          ids.filter fun i ↦ !gone.contains i := by
        simp [List.filter_append, hid]
      simp only [dropAll, List.filterMap_cons, hkept]
    · rw [dropAll, List.filterMap_cons, ← dropAll, ih]
      rfl

theorem drop_eq_dropAll {k : κ} {id : RuleId} (h : ∀ k', (k', id) ∈ ix.entries → k' = k) :
    ix.drop k id = ix.dropAll [id] := by
  refine List.filterMap_congr fun group hgroup ↦ ?_
  obtain ⟨k', ids⟩ := group
  have hrest : (if k' = k then ids.filter (· != id) else ids) =
      ids.filter fun i ↦ !List.contains [id] i := by
    split
    · refine List.filter_congr fun i _ ↦ ?_
      rw [List.contains_cons, List.contains_nil, Bool.or_false, bne]
    · rename_i hk
      refine (List.filter_eq_self.mpr fun i hi ↦ ?_).symm
      have hne : i ≠ id := by
        rintro rfl
        exact hk (h k' (mem_entries.mpr ⟨ids, hgroup, hi⟩))
      simpa using hne
  dsimp only
  rw [hrest]

end RuleIndex

namespace RuleStore

variable {s s' u : RuleStore} {p : Rule → Prop}

structure Pruned (s : RuleStore) : Prop where
  conclusions : s.conclusions.Trimmed
  names : s.names.Trimmed
  generated : s.generated.Trimmed

theorem trimmed_indexName (h : s.names.Trimmed) (r : Rule) : (s.indexName r).names.Trimmed := by
  rw [indexName]
  split
  · exact h.push _ _
  · exact h

theorem trimmed_unindexName (h : s.names.Trimmed) (r : Rule) :
    (s.unindexName r).names.Trimmed := by
  rw [unindexName]
  split
  · exact RuleIndex.trimmed_drop _ _ _
  · exact h

theorem Pruned.insert (h : s.Pruned) (r : Rule) (origin : Origin) : (s.insert r origin).Pruned := by
  rw [RuleStore.insert]
  refine ⟨?_, trimmed_indexName h.names _, ?_⟩
  · dsimp only
    split
    · exact h.conclusions.push _ _
    · exact h.conclusions
  · dsimp only
    split
    · exact h.generated.push _ _
    · exact h.generated

theorem Pruned.detach (h : s.Pruned) (id : RuleId) : (s.detach id).Pruned := by
  cases hr : s.rule? id with
  | none =>
    rw [RuleStore.detach, hr]
    exact h
  | some r =>
    refine ⟨?_, ?_, ?_⟩
    · rw [RuleStore.detach, hr]
      dsimp only
      split
      · exact RuleIndex.trimmed_drop _ _ _
      · exact h.conclusions
    · rw [RuleStore.detach, hr]
      exact trimmed_unindexName h.names r
    · rw [generated_detach]
      exact h.generated

theorem Pruned.change (h : s.Pruned) (hchange : Change p s s') : s'.Pruned := by
  cases hchange with
  | aside _ hconclusions hnames _ _ hgenerated =>
    exact ⟨hconclusions ▸ h.conclusions, hnames ▸ h.names, hgenerated h.generated⟩
  | user => exact h.insert _ _
  | hook => exact h.insert _ _
  | @transposition source c _ _ => exact Pruned.insert (s := (s.takeName c).2) ⟨h.1, h.2, h.3⟩ _ _
  | detach => exact h.detach _
  | @retitle r _ _ =>
    obtain ⟨nextName, heq⟩ := s.retitle_eq r
    rw [heq]
    exact ⟨h.conclusions, trimmed_indexName (trimmed_unindexName h.names r) _, h.generated⟩

theorem ReachableBy.pruned (h : s.ReachableBy p) : s.Pruned := by
  refine h.of_changes (fun _ ↦ ⟨?_, ?_, ?_⟩) fun _ _ _ hs ↦ hs.change
  all_goals exact fun _ hgroup ↦ by cases hgroup

theorem Indexed.dropAll_eq (h : s.Indexed) {κ : Type} [DecidableEq κ] (key : Rule → Option κ)
    {ix : RuleIndex κ} (hix : ix.Trimmed)
    (hentries : ∀ e ∈ ix.entries, ∃ r ∈ s.rules, r.id = e.2 ∧ key r = some e.1) (id : RuleId) :
    ix.dropAll [id] = match (s.rule? id).bind key with
      | some k => ix.drop k id
      | none => ix := by
  have hkey {k : κ} (he : (k, id) ∈ ix.entries) : (s.rule? id).bind key = some k := by
    obtain ⟨r, hr, rfl, hk⟩ := hentries _ he
    rw [h.rule?_eq_some hr]
    exact hk
  cases hid : (s.rule? id).bind key with
  | none =>
    refine RuleIndex.dropAll_eq_self hix fun e he hmem ↦ ?_
    obtain rfl := List.mem_singleton.mp hmem
    rw [hkey he] at hid
    cases hid
  | some k =>
    refine (RuleIndex.drop_eq_dropAll fun k' he ↦ ?_).symm
    rw [hkey he] at hid
    exact Option.some.inj hid

theorem Indexed.conclusions_detach (h : s.Indexed) (hs : s.conclusions.Trimmed) (id : RuleId) :
    (s.detach id).conclusions = s.conclusions.dropAll [id] := by
  rw [h.dropAll_eq (fun r ↦ r.consequent.predicate?.map (·, r.antecedent.length)) hs]
  · cases hr : s.rule? id with
    | none => simp only [RuleStore.detach, hr, Option.bind_none]
    | some r => cases hp : r.consequent.predicate? <;> simp [RuleStore.detach, hr, hp]
  · intro e he
    obtain ⟨r, hr, hentry, hid⟩ := mem_filterMap_entry (h.entries.mem_iff.mp he)
    obtain ⟨p, hp, rfl⟩ := Option.map_eq_some_iff.mp hentry
    exact ⟨r, hr, hid, by rw [hp]; rfl⟩

theorem Listed.names_detach (h : s.Listed) (hs : s.names.Trimmed) (id : RuleId) :
    (s.detach id).names = s.names.dropAll [id] := by
  rw [h.dropAll_eq (fun r ↦ r.name.bind Term.predicate?) hs]
  · cases hr : s.rule? id with
    | none => simp only [RuleStore.detach, hr, Option.bind_none]
    | some r =>
      obtain ⟨-, rfl⟩ := of_rule? hr
      simp only [RuleStore.detach, hr, unindexName, Option.bind_some]
      cases r.name.bind Term.predicate? <;> rfl
  · intro e he
    obtain ⟨r, hr, hentry⟩ := List.mem_filterMap.mp (h.listed.mem_iff.mp he)
    obtain ⟨p, hp, rfl⟩ := Option.map_eq_some_iff.mp hentry
    exact ⟨r, hr, rfl, hp⟩

theorem Listed.indexes_foldl_detach (h : s.Listed) (hs : s.Pruned) (ids : List RuleId) :
    (ids.foldl RuleStore.detach s).conclusions = s.conclusions.dropAll ids ∧
      (ids.foldl RuleStore.detach s).names = s.names.dropAll ids := by
  induction ids generalizing s with
  | nil =>
    exact ⟨(RuleIndex.dropAll_eq_self hs.conclusions fun _ _ ↦ List.not_mem_nil).symm,
      (RuleIndex.dropAll_eq_self hs.names fun _ _ ↦ List.not_mem_nil).symm⟩
  | cons id ids ih =>
    obtain ⟨hconclusions, hnames⟩ := ih (h.detach id) (hs.detach id)
    rw [List.foldl_cons, hconclusions, hnames, h.conclusions_detach hs.conclusions,
      h.names_detach hs.names]
    exact ⟨(RuleIndex.dropAll_cons id ids _).symm, (RuleIndex.dropAll_cons id ids _).symm⟩

theorem keys_detach (s : RuleStore) (id : RuleId) :
    ((s.detach id).catalogue.map Prod.fst).Sublist (s.catalogue.map Prod.fst) := by
  rw [detach]
  split
  · exact .refl _
  · exact Catalogue.keys_forget _ _

theorem keys_foldl_detach (s : RuleStore) (ids : List RuleId) :
    ((ids.foldl detach s).catalogue.map Prod.fst).Sublist (s.catalogue.map Prod.fst) := by
  induction ids generalizing s with
  | nil => exact .refl _
  | cons id ids ih => exact (ih _).trans (s.keys_detach id)

theorem Reachable.untransposed_spec (h : s.Reachable) {gone : List RuleId}
    (hgone : (s.rules.filter (·.origin.isTransposition)).map Rule.id = gone) :
    s.untransposed.rules = s.rules.filter (fun r ↦ !gone.contains r.id) ∧
      s.untransposed.conclusions = s.conclusions.dropAll gone ∧
      s.untransposed.names = s.names.dropAll gone ∧
      s.untransposed.generated = s.generated.dropAll gone ∧
      (s.untransposed.catalogue.map Prod.fst).Sublist (s.catalogue.map Prod.fst) ∧
      s.untransposed.transposing = false := by
  subst hgone
  have hside : Change (fun _ ↦ True) s { s with transposing := false } :=
    .aside rfl rfl rfl rfl rfl id
  obtain ⟨hconclusions, hnames⟩ := (h.reachableBy.listed.change hside).indexes_foldl_detach
    (h.reachableBy.pruned.change hside) _
  exact ⟨rules_foldl_detach _ _, hconclusions, hnames, rfl, keys_foldl_detach _ _,
    transposing_foldl_detach _ _⟩

structure AgreeWithout (gone : List RuleId) (s u : RuleStore) : Prop where
  conclusions : u.conclusions.dropAll gone = s.conclusions.dropAll gone
  names : u.names.dropAll gone = s.names.dropAll gone
  generated : u.generated.dropAll gone = s.generated.dropAll gone

theorem AgreeWithout.insert {gone : List RuleId} (h : AgreeWithout gone s u)
    (hid : u.nextId ∈ gone) (r : Rule) (origin : Origin) :
    AgreeWithout gone s (u.insert r origin) := by
  refine ⟨Eq.trans ?_ h.conclusions, Eq.trans ?_ h.names, Eq.trans ?_ h.generated⟩
  · rw [RuleStore.insert]
    dsimp only
    split
    · exact RuleIndex.dropAll_push hid _ _
    · rfl
  · rw [RuleStore.insert, indexName]
    dsimp only
    split
    · exact RuleIndex.dropAll_push hid _ _
    · rfl
  · rw [RuleStore.insert]
    dsimp only
    split
    · exact RuleIndex.dropAll_push hid _ _
    · rfl

/-- A store with some contrapositives more. Without their ids the indexes are as they were. -/
structure Overgrown (s u : RuleStore) (grown : List Rule) : Prop where
  rules : u.rules = s.rules ++ grown
  transpositions : ∀ T ∈ grown, T.origin.isTransposition = true
  indexes : ∀ gone, (∀ T ∈ grown, T.id ∈ gone) → AgreeWithout gone s u
  keys : (s.catalogue.map Prod.fst).Sublist (u.catalogue.map Prod.fst)
  transposing : u.transposing = true

theorem Overgrown.insert {grown : List Rule} (h : s.Overgrown u grown) (r : Rule)
    (source : RuleId) : s.Overgrown (u.insert r (.transposition source))
      (grown ++ [r.stored u.nextId (.transposition source)]) where
  rules := by
    rw [rules_insert, h.rules, List.append_assoc]
    rfl
  transpositions := by
    intro T hT
    rcases List.mem_append.mp hT with hT | hT
    · exact h.transpositions T hT
    · rw [List.mem_singleton.mp hT]
      rfl
  indexes := by
    intro gone hgone
    obtain ⟨hgrown, hlast⟩ := List.forall_mem_append.mp hgone
    exact (h.indexes gone hgrown).insert (hlast _ (.head _)) r _
  keys := h.keys.trans (Catalogue.keys_record _ _)
  transposing := (transposing_insert u r _).trans h.transposing

theorem exists_overgrown (s : RuleStore) (sources : List Rule) :
    ∃ grown, s.Overgrown (transposeAll { s with transposing := true } sources) grown := by
  refine transposeAll_induction (motive := fun u ↦ ∃ grown, s.Overgrown u grown) ?_ ?_
  · exact ⟨[], (List.append_nil _).symm, fun T hT ↦ (List.not_mem_nil hT).elim,
      fun gone _ ↦ ⟨rfl, rfl, rfl⟩, .refl _, rfl⟩
  · rintro u source c ⟨grown, hgrown⟩ - - -
    have hnamed : s.Overgrown (u.takeName c).2 grown :=
      ⟨hgrown.rules, hgrown.transpositions, fun gone hgone ↦
        ⟨(hgrown.indexes gone hgone).1, (hgrown.indexes gone hgone).2,
          (hgrown.indexes gone hgone).3⟩, hgrown.keys, hgrown.transposing⟩
    exact ⟨_, hnamed.insert _ _⟩

theorem Overgrown.filter_eq {grown : List Rule} (h : s.Overgrown u grown)
    (hs : ∀ r ∈ s.rules, r.origin.isTransposition = false) :
    u.rules.filter (·.origin.isTransposition) = grown := by
  rw [h.rules, List.filter_append, List.filter_eq_nil_iff.mpr, List.nil_append,
    List.filter_eq_self.mpr h.transpositions]
  intro r hr
  rw [hs r hr]
  exact Bool.false_ne_true

theorem Reachable.dropAll_eq (h : s.Reachable) {gone : List RuleId}
    (hgone : ∀ r ∈ s.rules, r.id ∉ gone) : s.conclusions.dropAll gone = s.conclusions ∧
      s.names.dropAll gone = s.names ∧ s.generated.dropAll gone = s.generated := by
  have hpruned := h.reachableBy.pruned
  refine ⟨RuleIndex.dropAll_eq_self hpruned.conclusions fun e he ↦ ?_,
    RuleIndex.dropAll_eq_self hpruned.names fun e he ↦ ?_,
    RuleIndex.dropAll_eq_self hpruned.generated fun e he ↦ ?_⟩
  · obtain ⟨r, hr, -, hid⟩ := mem_filterMap_entry (h.indexed.entries.mem_iff.mp he)
    exact hid ▸ hgone r hr
  · obtain ⟨r, hr, hentry⟩ := List.mem_filterMap.mp (h.reachableBy.listed.listed.mem_iff.mp he)
    exact id_of_naming? hentry ▸ hgone r hr
  · obtain ⟨r, hr, hentry⟩ := List.mem_filterMap.mp (h.coherent.generated.mem_iff.mp he)
    obtain ⟨source, -, rfl⟩ := Option.map_eq_some_iff.mp hentry
    exact hgone r hr

theorem Overgrown.untransposed_eq {grown : List Rule} (h : s.Overgrown u grown) (hs : s.Reachable)
    (hu : u.Reachable) (hoff : s.transposing = false) :
    ∃ nextId nextName, u.untransposed = { s with nextId, nextName } := by
  have hgone (r : Rule) (hr : r ∈ s.rules) : r.id ∉ grown.map Rule.id := by
    have hnodup := hu.indexed.nodup
    rw [h.rules, List.map_append] at hnodup
    exact List.disjoint_of_nodup_append hnodup (List.mem_map.mpr ⟨r, hr, rfl⟩)
  have hagree := h.indexes (grown.map Rule.id) fun T hT ↦ List.mem_map.mpr ⟨T, hT, rfl⟩
  obtain ⟨hconclusions, hnames, hgenerated⟩ := hs.dropAll_eq hgone
  have hids : (u.rules.filter (·.origin.isTransposition)).map Rule.id = grown.map Rule.id :=
    congrArg _ (h.filter_eq fun r hr ↦ hs.transposed.isTransposition_of_off hoff hr)
  have hspec := hu.untransposed_spec hids
  rw [hagree.conclusions, hconclusions, hagree.names, hnames, hagree.generated, hgenerated,
    ← hoff] at hspec
  obtain ⟨hrules, hconclusions', hnames', hgenerated', hkeys, htransposing⟩ := hspec
  have hrules' : u.untransposed.rules = s.rules := by
    rw [hrules, h.rules, List.filter_append, List.filter_eq_self.mpr, List.filter_eq_nil_iff.mpr,
      List.append_nil]
    · intro T hT
      simpa using ⟨T, hT, rfl⟩
    · intro r hr
      simpa using hgone r hr
  -- The counts are those of the rules; the order of the predicates, before and after, is that in
  -- which `u` lists them.
  have hcatalogue : u.untransposed.catalogue = s.catalogue := by
    have htallied := (hu.setTransposing false).reachableBy.tallied
    rw [setTransposing_off h.transposing, Tallied, hrules'] at htallied
    exact htallied.eq_of_sublist hs.reachableBy.tallied hu.reachableBy.tallied.nodup hkeys h.keys
  generalize u.untransposed = v at *
  refine ⟨v.nextId, v.nextName, ?_⟩
  rw [← hrules', ← hconclusions', ← hnames', ← hgenerated', ← hcatalogue, ← htransposing]

/-- Transposition switched on and off again leaves a store as it was: rules, indexes and catalogue
are the same in every detail, and only the counters for ids and for automatic names have moved. -/
theorem Reachable.setTransposing_on_off (h : s.Reachable) (hoff : s.transposing = false) :
    ∃ nextId nextName,
      (s.setTransposing true).setTransposing false = { s with nextId, nextName } := by
  have hon := h.setTransposing true
  rw [RuleStore.setTransposing_on hoff] at hon ⊢
  obtain ⟨grown, hgrown⟩ := s.exists_overgrown s.strictUserRules
  rw [RuleStore.setTransposing_off hgrown.transposing]
  exact hgrown.untransposed_eq h hon hoff

def dormant : RuleStore :=
  (Engine.addAll ⟨.default, .empty false⟩ [.plain (.const "p") [.const "q", .const "r"] .one,
    .plain (.const "~q") [.const "~p", .const "r"] .one,
    (Rule.plain (.const "s") [.const "t"] .one).withName (.const "n")]).2.store

theorem dormant_on_off :
    dormant.transposing = false ∧
    dormant.rules.map Rule.text = ["p <- q, r.", "r1.", "~q <- ~p, r.", "r2.", "s <- t.", "n."] ∧
    (dormant.setTransposing true).rules.map Rule.text = ["p <- q, r.", "r1.", "~q <- ~p, r.", "r2.",
      "s <- t.", "n.", "~r <- ~p, q.", "~r <- q, ~p.", "~t <- ~s."] ∧
    ∃ nextId nextName,
      (dormant.setTransposing true).setTransposing false = { dormant with nextId, nextName } := by
  have hreachable : dormant.Reachable := Engine.addAll_reachable (.empty false) _
  exact ⟨by decide +kernel, by decide +kernel, by decide +kernel,
    hreachable.setTransposing_on_off (by decide +kernel)⟩

end RuleStore

end Argumentation
