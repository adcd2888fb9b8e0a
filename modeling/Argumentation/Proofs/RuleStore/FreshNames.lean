import Argumentation.Proofs.RuleStore.Names
import Argumentation.Proofs.Substitution.Resemblance

namespace Argumentation.RuleStore

variable {s s' : RuleStore} {p : Rule → Prop}

theorem predicate?_autoName (n : ℕ) (r : Rule) :
    (autoName n r).predicate? = some ⟨"r" ++ toString n, r.vars.length⟩ := by
  rw [autoName, Term.predicate?, List.length_map]

theorem mem_occurrences_autoName {n : ℕ} {r : Rule} {v : Variable} :
    v ∈ (autoName n r).occurrences ↔ v ∈ r.vars := by
  rw [autoName, Term.occurrences, Term.mem_occurrencesAll]
  simp [Term.occurrences]

def takenFunctors (s : RuleStore) : List String :=
  s.rules.filterMap fun r ↦ (r.name.bind Term.predicate?).map Predicate.functor

theorem mem_takenFunctors (hliteral : ∀ x ∈ s.rules, ∀ n, x.name = some n → n.isLiteral = true)
    {n : ℕ} {r : Rule} (h : s.isRuleName (autoName n r) = true) :
    "r" ++ toString n ∈ s.takenFunctors := by
  obtain ⟨x, hx, name, hname, hunifies⟩ := exists_of_isRuleName h
  obtain ⟨q, hq⟩ := Term.predicate?_isSome (hliteral x hx name hname)
  have hsame := Term.predicate?_of_unifies hq (predicate?_autoName n r) hunifies
  refine List.mem_filterMap.mpr ⟨x, hx, ?_⟩
  rw [hname, Option.bind_some, hq, Option.map_some, hsame]

/-- There are no more taken names with different numbers than there are named rules. -/
theorem length_taken_le (hliteral : ∀ x ∈ s.rules, ∀ n, x.name = some n → n.isLiteral = true)
    {r : Rule} {ns : List ℕ} (hnodup : ns.Nodup)
    (htaken : ∀ n ∈ ns, s.isRuleName (autoName n r) = true) :
    ns.length ≤ s.rules.countP (·.name.isSome) := by
  have hfunctors : (ns.map fun n ↦ "r" ++ toString n).Nodup :=
    hnodup.map fun m n h ↦ Nat.repr_inj.mp ((String.append_right_inj "r").mp h)
  have hsub : (ns.map fun n ↦ "r" ++ toString n) ⊆ s.takenFunctors := by
    intro f hf
    obtain ⟨n, hn, rfl⟩ := List.mem_map.mp hf
    exact mem_takenFunctors hliteral (htaken n hn)
  have hle := (hfunctors.subperm hsub).length_le
  rw [List.length_map, takenFunctors, List.length_filterMap_eq_countP] at hle
  refine hle.trans (List.countP_mono_left fun x _ hx ↦ ?_)
  cases hname : x.name with
  | none =>
    rw [hname] at hx
    cases hx
  | some n => rfl

/-- The names that are passed over are taken, and the one after them is free. -/
theorem skippedNames_spec (hliteral : ∀ x ∈ s.rules, ∀ n, x.name = some n → n.isLiteral = true)
    (r : Rule) : (∀ i < s.skippedNames r, s.isRuleName (autoName (s.nextName + i) r) = true) ∧
      s.isRuleName (autoName (s.nextName + s.skippedNames r) r) = false := by
  rw [skippedNames]
  cases hfound : (List.range (s.rules.length + 1)).find?
      fun i ↦ !s.isRuleName (autoName (s.nextName + i) r) with
  | some i =>
    obtain ⟨hfree, -, htaken⟩ := List.find?_range_eq_some.mp hfound
    exact ⟨fun j hj ↦ by simpa using htaken j hj, by simpa using hfree⟩
  | none =>
    exfalso
    have htaken : ∀ n ∈ List.range' s.nextName (s.rules.length + 1),
        s.isRuleName (autoName n r) = true := by
      intro n hn
      rw [List.mem_range'_1] at hn
      have hi := List.find?_eq_none.mp hfound (n - s.nextName) (List.mem_range.mpr (by omega))
      rw [Nat.add_sub_cancel' hn.1] at hi
      simpa using hi
    have hle := length_taken_le hliteral List.nodup_range' htaken
    have hcount := List.countP_le_length (p := fun x : Rule ↦ x.name.isSome) (l := s.rules)
    rw [List.length_range'] at hle
    omega

theorem takeName_free (hliteral : ∀ x ∈ s.rules, ∀ n, x.name = some n → n.isLiteral = true)
    (r : Rule) : s.isRuleName (s.takeName r).1 = false :=
  (skippedNames_spec hliteral r).2

theorem Listed.unifies_takeName (h : s.Listed) (r : Rule) {x : Rule} (hx : x ∈ s.rules) {n : Term}
    (hn : x.name = some n) : n.unifies (s.takeName r).1 = false := by
  rw [← Bool.not_eq_true]
  intro hunifies
  have htaken := (h.isRuleName_iff (t := (s.takeName r).1) rfl).mpr ⟨x, hx, n, hn, hunifies⟩
  rw [takeName_free h.literal r] at htaken
  cases htaken

/-- The name that a rule gets in exchange for its own is not that of another rule. -/
theorem Listed.unifies_newName (h : s.Listed) {r x : Rule} (hr : r ∈ s.rules) (hx : x ∈ s.rules)
    (hne : x.id ≠ r.id) {n : Term} (hn : x.name = some n) :
    n.unifies (s.newName r) = false := by
  rw [← Bool.not_eq_true]
  intro hunifies
  have hfree : (s.unindexName r).isRuleName (s.newName r) = false :=
    takeName_free ((s.rules_unindexName r).symm ▸ h.literal) r
  obtain ⟨p, hp⟩ := Term.predicate?_isSome (t := s.newName r) rfl
  have hnaming := Rule.naming?_of_unifies hn (h.literal x hx n hn) hp hunifies
  have hentry : (p, x.id) ∈ (s.unindexName r).names.entries := by
    rw [(h.names_unindexName hr).mem_iff, List.mem_filterMap]
    exact ⟨x, List.mem_filter.mpr ⟨hx, bne_iff_ne.mpr hne⟩, hnaming⟩
  have hfound : (s.unindexName r).rule? x.id = some x := by
    rw [rule?, rules_unindexName]
    exact h.rule?_eq_some hx
  have hmem := mem_named (keyed_unindexName h.namesKeyed r) hentry hp hfound hn hunifies
  rw [isRuleName_of_mem hmem] at hfree
  cases hfree

def Apart (rules : List Rule) (pending : List RuleId) : Prop :=
  ∀ x ∈ rules, ∀ y ∈ rules, x.id ≠ y.id → x.id ∉ pending → y.id ∉ pending →
    ∀ m n, x.name = some m → y.name = some n → ¬m.Overlaps n

section

variable {rules rules' : List Rule} {pending pending' : List RuleId}

theorem Apart.mono (h : Apart rules pending) (hrules : ∀ x ∈ rules', x ∈ rules)
    (hpending : ∀ id ∈ pending, id ∈ pending') : Apart rules' pending' := by
  intro x hx y hy hne hxp hyp
  exact h x (hrules x hx) y (hrules y hy) hne (fun hid ↦ hxp (hpending _ hid))
    fun hid ↦ hyp (hpending _ hid)

theorem Apart.append (h : Apart rules pending) {x : Rule}
    (hx : ∀ y ∈ rules, y.id ∉ pending → ∀ m n, x.name = some m → y.name = some n →
      n.unifies m = false) : Apart (rules ++ [x]) pending := by
  have hnew (y : Rule) (hy : y ∈ rules) (hyp : y.id ∉ pending) (m n : Term) (hm : x.name = some m)
      (hn : y.name = some n) (hoverlaps : n.Overlaps m) : False := by
    have hunifies := hx y hy hyp m n hm hn
    rw [hoverlaps.1] at hunifies
    cases hunifies
  intro y hy z hz hne hyp hzp m n hm hn hoverlaps
  rcases List.mem_append.mp hy with hy | hy <;> rcases List.mem_append.mp hz with hz | hz
  · exact h y hy z hz hne hyp hzp m n hm hn hoverlaps
  · rw [List.mem_singleton.mp hz] at hn
    exact hnew y hy hyp n m hn hm hoverlaps
  · rw [List.mem_singleton.mp hy] at hm
    exact hnew z hz hzp m n hm hn hoverlaps.symm
  · rw [List.mem_singleton.mp hy, List.mem_singleton.mp hz] at hne
    exact hne rfl

theorem Apart.retitle (hl : s.Listed) {r : Rule} (hr : r ∈ s.rules)
    (h : Apart s.rules (r.id :: pending)) : Apart (s.retitle r).rules pending := by
  have hnew (x : Rule) (hx : x ∈ s.rules) (hne : x.id ≠ r.id) (n : Term) (hn : x.name = some n)
      (hoverlaps : n.Overlaps (s.newName r)) : False := by
    have hunifies := hl.unifies_newName hr hx hne hn
    rw [hoverlaps.1] at hunifies
    cases hunifies
  intro x hx y hy hne hxp hyp m n hm hn hoverlaps
  rcases mem_retitle hx with ⟨hx, hxr⟩ | rfl <;> rcases mem_retitle hy with ⟨hy, hyr⟩ | rfl
  · exact h x hx y hy hne (by simp [hxr, hxp]) (by simp [hyr, hyp]) m n hm hn hoverlaps
  · cases hn
    exact hnew x hx hxr m hm hoverlaps
  · cases hm
    exact hnew y hy hyr n hn hoverlaps.symm
  · exact hne rfl

theorem Apart.change (hl : s.Listed) (h : Apart s.rules pending)
    (hchange : Change (fun _ ↦ False) s s') : Apart s'.rules pending := by
  cases hchange with
  | aside hrules =>
    rw [hrules]
    exact h
  | user hp => exact hp.elim
  | hook =>
    rw [rules_insert]
    exact h.append fun _ _ _ _ _ hm ↦ by cases hm
  | @transposition source c _ _ =>
    rw [rules_insert]
    refine Apart.append h fun y hy _ m n hm hn ↦ ?_
    cases hm
    exact hl.unifies_takeName c hy hn
  | detach id =>
    rw [rules_detach]
    exact h.mono (fun x hx ↦ (List.mem_filter.mp hx).1) fun _ hid ↦ hid
  | retitle hr _ => exact Apart.retitle hl hr (h.mono (fun _ hx ↦ hx) fun _ hid ↦ .tail _ hid)

theorem Listed.changes (hl : s.Listed) (hchanges : Changes p s s') : s'.Listed :=
  hchanges.keeps hl.toIndexed (fun _ _ _ hl ↦ hl.change) hl

theorem Apart.changes (hl : s.Listed) (h : Apart s.rules pending)
    (hchanges : Changes (fun _ ↦ False) s s') : Apart s'.rules pending :=
  (hchanges.keeps (motive := fun s ↦ s.Listed ∧ Apart s.rules pending) hl.toIndexed
    (fun _ _ _ hs hchange ↦ ⟨hs.1.change hchange, hs.2.change hs.1 hchange⟩) ⟨hl, h⟩).2

theorem Apart.rename (hl : s.Listed) {id : RuleId} (h : Apart s.rules (id :: pending)) :
    Apart (s.rename id).rules pending := by
  cases hr : s.rule? id with
  | none =>
    have hnone (x : Rule) (hx : x ∈ s.rules) : x.id ≠ id := by
      simpa using List.find?_eq_none.mp hr x hx
    rw [RuleStore.rename, hr]
    intro x hx y hy hne hxp hyp
    exact h x hx y hy hne (by simp [hnone x hx, hxp]) (by simp [hnone y hy, hyp])
  | some r =>
    obtain ⟨hmem, rfl⟩ := of_rule? hr
    have hretitled : Apart (s.retitle r).rules pending := Apart.retitle hl hmem h
    rw [rename_of_some hr]
    split
    · exact hretitled.changes (hl.retitle hmem)
        ((unhook_changes _ r.id).trans (addHook_changes _ r.id))
    · exact hretitled

theorem Apart.foldl_rename {ids : List RuleId} (hl : s.Listed) (hids : s.Yields ids)
    (h : Apart s.rules ids) : Apart (ids.foldl RuleStore.rename s).rules [] := by
  induction ids generalizing s with
  | nil => exact h
  | cons id ids ih =>
    have hrenamed : (s.rename id).Listed :=
      hl.changes (p := fun _ ↦ False) (rename_changes (hids id (.head _)).2)
    have hrest : s.Yields ids := fun id' hid' ↦ hids id' (.tail _ hid')
    exact ih hrenamed (hrest.mono (s.nextId_le_rename id) fun _ ↦ mem_rename) (h.rename hl)

end

theorem Listed.unifies_settleName (h : s.Listed) {r named : Rule} {ids : List RuleId}
    (hsettle : s.settleName r = .ok (named, ids, s')) {y : Rule} (hy : y ∈ s.rules)
    (hyids : y.id ∉ ids) {m n : Term} (hm : named.name = some m) (hn : y.name = some n) :
    n.unifies m = false := by
  rcases settleName_spec hsettle with ⟨name, hname, hliteral, -, hids, rfl, -⟩ |
    ⟨hname, -, ⟨-, rfl, -⟩ | ⟨-, rfl, -⟩⟩
  · rw [hname] at hm
    cases hm
    rw [← Bool.not_eq_true]
    intro hunifies
    rw [(displaced_ok hids).1, h.mem_named_iff hliteral] at hyids
    exact hyids ⟨y, hy, rfl, n, hn, hunifies⟩
  · rw [hname] at hm
    cases hm
  · cases hm
    exact h.unifies_takeName r hy hn

theorem Apart.add (hl : s.Listed) (h : Apart s.rules []) {r : Rule} {id : RuleId}
    (hadd : s.add r = .ok (id, s')) : Apart s'.rules [] := by
  obtain ⟨-, named, ids, nextName, hsettle, rfl⟩ := add_spec hadd
  have hroom : ∀ x ∈ (makeRoom { s with nextName } named).rules, x ∈ s.rules :=
    (makeRoom_frame { s with nextName } named).2
  have hids : RuleStore.Yields { s with nextName } ids := hl.yields_of_settleName hsettle
  have hstart : Changes (fun _ ↦ False) s { s with nextName } :=
    .single (.aside rfl rfl rfl rfl rfl fun h ↦ h)
  have hmade := hstart.trans (makeRoom_changes _ named)
  have hinserted : ((makeRoom { s with nextName } named).insert named .user).Listed :=
    (hl.changes hmade).insert .user (settleName_user hsettle).2
  have hyields := (hids.makeRoom named).insert named .user
  have hapart : Apart ((makeRoom { s with nextName } named).insert named .user).rules ids := by
    rw [rules_insert]
    refine (h.mono hroom fun _ hid ↦ by cases hid).append fun y hy hyids m n hm hn ↦ ?_
    exact hl.unifies_settleName hsettle (hroom y hy) hyids hm hn
  exact (hapart.foldl_rename hinserted hyields).changes
    (hinserted.changes (foldl_rename_changes (p := fun _ ↦ False) hyields))
    (install_changes _ named ids)

theorem Reachable.apart (h : s.Reachable) : Apart s.rules [] := by
  induction h with
  | empty transposing =>
    intro x hx
    cases hx
  | add hs hadd ih => exact ih.add hs.reachableBy.listed hadd
  | remove hs hremove ih => exact ih.changes hs.reachableBy.listed (remove_changes hremove)
  | setTransposing on hs ih =>
    exact ih.changes hs.reachableBy.listed (setTransposing_changes _ on)

end Argumentation.RuleStore
