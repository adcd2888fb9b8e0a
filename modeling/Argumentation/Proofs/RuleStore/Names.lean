import Argumentation.Proofs.RuleStore.Changes
import Argumentation.Proofs.Substitution.Acyclic

namespace Argumentation

def Rule.naming? (r : Rule) : Option (Predicate × RuleId) :=
  (r.name.bind Term.predicate?).map (·, r.id)

namespace Term

theorem predicate?_isSome {t : Term} (h : t.isLiteral = true) :
    ∃ p, t.predicate? = some p := by
  revert h
  fun_cases isLiteral t <;> intro h
  · exact ⟨_, rfl⟩
  · cases h

/-- What a literal unifies with is a literal with its predicate, or a variable that does not occur
in it. -/
theorem predicate?_or_var_of_unifies {t u : Term} {p : Predicate} (ht : t.predicate? = some p)
    (h : t.unifies u = true) : u.predicate? = some p ∨ ∃ v, u = .var v ∧ v ∉ t.occurrences := by
  revert ht
  fun_cases predicate? t <;> intro ht
  · rename_i f xs
    cases ht
    rw [unifies, Substitution.unify] at h
    obtain ⟨n, hn⟩ : ∃ n,
        Substitution.unifyDepth (.app (.name f) xs) u Substitution.empty = n + 1 :=
      Nat.exists_eq_succ_of_ne_zero (by simp [Substitution.unifyDepth])
    rw [hn, Substitution.unifyWithin] at h
    cases u with
    | var v =>
      refine .inr ⟨v, rfl, fun hv ↦ ?_⟩
      have happly : v ∈ (Substitution.empty.apply (.app (.name f) xs)).occurrences := by
        rw [Substitution.apply_eq_bind, mem_occurrences_bind]
        exact ⟨v, hv, by rw [Substitution.apply_of_unbound _ rfl]; exact .head _⟩
      have hmentions : (Substitution.empty.apply (.app (.name f) xs)).mentions v = true :=
        List.contains_iff_mem.mpr happly
      have hbound : (Substitution.empty.bindVariable v (.app (.name f) xs)).isConsistent = true := h
      rw [Substitution.bindVariable, if_pos hmentions, Substitution.not_isConsistent_ban] at hbound
      cases hbound
    | num k => cases h
    | app g ys =>
      simp only [Substitution.walk, Substitution.walkWithin] at h
      split at h
      · rename_i hclash
        cases hclash
      · split at h
        · rename_i hsame
          obtain ⟨rfl, hlength⟩ := hsame
          exact .inl (by rw [predicate?, hlength])
        · cases h
  · cases ht

theorem predicate?_of_unifies {t u : Term} {p q : Predicate} (ht : t.predicate? = some p)
    (hu : u.predicate? = some q) (h : t.unifies u = true) : p = q := by
  rcases predicate?_or_var_of_unifies ht h with hp | ⟨v, rfl, -⟩
  · exact Option.some.inj (hp.symm.trans hu)
  · cases hu

end Term

theorem Rule.naming?_of_unifies {r : Rule} {n t : Term} {p : Predicate} (hn : r.name = some n)
    (hliteral : n.isLiteral = true) (hp : t.predicate? = some p) (h : n.unifies t = true) :
    r.naming? = some (p, r.id) := by
  obtain ⟨q, hq⟩ := Term.predicate?_isSome hliteral
  rw [naming?, hn, Option.bind_some, hq, Term.predicate?_of_unifies hq hp h]
  rfl

namespace RuleStore

variable {s s' : RuleStore} {p : Rule → Prop}

/-- The index of names has one entry for each named rule, and names are literals. -/
structure Listed (s : RuleStore) : Prop extends s.Indexed where
  namesKeyed : s.names.Keyed
  listed : s.names.entries.Perm (s.rules.filterMap Rule.naming?)
  literal : ∀ r ∈ s.rules, ∀ name, r.name = some name → name.isLiteral = true

theorem listed_empty (transposing : Bool) : (empty transposing).Listed :=
  { indexed_empty transposing with
    namesKeyed := .nil
    listed := .nil
    literal := by simp [empty] }

theorem names_indexName (s : RuleStore) (r : Rule) :
    (s.indexName r).names.entries.Perm (r.naming?.toList ++ s.names.entries) := by
  rw [indexName, Rule.naming?]
  cases r.name.bind Term.predicate? with
  | none => exact .refl _
  | some p => exact RuleIndex.entries_push _ _ _

theorem keyed_indexName (h : s.names.Keyed) (r : Rule) : (s.indexName r).names.Keyed := by
  rw [indexName]
  split
  · exact h.push _ _
  · exact h

theorem keyed_unindexName (h : s.names.Keyed) (r : Rule) : (s.unindexName r).names.Keyed := by
  rw [unindexName]
  split
  · exact h.drop _ _
  · exact h

theorem id_of_naming? {r : Rule} {e : Predicate × RuleId} (h : r.naming? = some e) :
    e.2 = r.id := by
  obtain ⟨p, -, rfl⟩ := Option.map_eq_some_iff.mp h
  rfl

theorem Listed.names_unindexName (h : s.Listed) {r : Rule} (hr : r ∈ s.rules) :
    (s.unindexName r).names.entries.Perm
      ((s.rules.filter (·.id != r.id)).filterMap Rule.naming?) := by
  have hlisted := h.listed.trans ((h.perm_cons hr).filterMap _)
  have hrest : ∀ e ∈ (s.rules.filter (·.id != r.id)).filterMap Rule.naming?, e.2 ≠ r.id := by
    intro e he
    obtain ⟨x, hx, hentry⟩ := List.mem_filterMap.mp he
    rw [id_of_naming? hentry]
    exact bne_iff_ne.mp (List.mem_filter.mp hx).2
  rw [List.filterMap_cons, Rule.naming?] at hlisted
  rw [unindexName]
  generalize (s.rules.filter (·.id != r.id)).filterMap Rule.naming? = rest at hlisted hrest ⊢
  cases hp : r.name.bind Term.predicate? with
  | none =>
    rw [hp] at hlisted
    exact hlisted
  | some p =>
    rw [hp] at hlisted
    have hkept : rest.filter (· ≠ (p, r.id)) = rest :=
      List.filter_eq_self.mpr fun e he ↦ decide_eq_true fun heq ↦ hrest e he (heq ▸ rfl)
    dsimp only
    rw [RuleIndex.entries_drop]
    refine (hlisted.filter _).trans (.of_eq ?_)
    rw [Option.map_some, List.filter_cons_of_neg (by simp), hkept]

theorem Listed.insert (h : s.Listed) {r : Rule} (origin : Origin)
    (hliteral : ∀ name, r.name = some name → name.isLiteral = true) :
    (s.insert r origin).Listed := by
  refine { h.toIndexed.insert r origin with namesKeyed := ?_, listed := ?_, literal := ?_ }
  · exact keyed_indexName h.namesKeyed _
  · refine (names_indexName s _).trans ?_
    rw [rules_insert, List.filterMap_append]
    exact List.perm_append_comm.trans (h.listed.append (by
      rw [List.filterMap_cons]
      cases Rule.naming? { r with id := s.nextId, origin } <;> rfl))
  · rw [rules_insert]
    intro x hx
    rcases List.mem_append.mp hx with hx | hx
    · exact h.literal x hx
    · rw [List.mem_singleton.mp hx]
      exact hliteral

theorem Listed.takeName (h : s.Listed) (r : Rule) : (s.takeName r).2.Listed :=
  { h.toIndexed.congr rfl rfl rfl with
    namesKeyed := h.namesKeyed
    listed := h.listed
    literal := h.literal }

theorem Listed.detach (h : s.Listed) (id : RuleId) : (s.detach id).Listed := by
  refine { h.toIndexed.detach id with namesKeyed := ?_, listed := ?_, literal := ?_ }
  · rw [RuleStore.detach]
    split
    · exact h.namesKeyed
    · exact keyed_unindexName h.namesKeyed _
  · cases hr : s.rule? id with
    | none =>
      rw [RuleStore.detach, hr]
      exact h.listed
    | some r =>
      obtain ⟨hmem, rfl⟩ := of_rule? hr
      rw [RuleStore.detach, hr]
      exact h.names_unindexName hmem
  · rw [rules_detach]
    exact fun x hx ↦ h.literal x (List.mem_filter.mp hx).1

theorem Listed.retitle (h : s.Listed) {r : Rule} (hr : r ∈ s.rules) : (s.retitle r).Listed := by
  refine { h.toIndexed.retitle hr with namesKeyed := ?_, listed := ?_, literal := ?_ }
  all_goals
    obtain ⟨nextName, heq⟩ := s.retitle_eq r
    rw [heq]
  · exact keyed_indexName (keyed_unindexName h.namesKeyed r) _
  · refine (names_indexName _ _).trans ?_
    refine List.Perm.trans ?_ ((h.perm_replace hr _).filterMap _).symm
    rw [List.filterMap_cons]
    refine ((h.names_unindexName hr).append_left _).trans (.of_eq ?_)
    rfl
  · intro x hx
    obtain ⟨y, hy, rfl⟩ := List.mem_map.mp hx
    split
    · intro name hname
      cases hname
      rfl
    · exact h.literal y hy

theorem Listed.change (h : s.Listed) (hchange : Change p s s') : s'.Listed := by
  cases hchange with
  | aside hrules hconclusions hnames _ hnext _ =>
    refine { h.toIndexed.congr hrules hconclusions hnext with
      namesKeyed := ?_, listed := ?_, literal := ?_ }
    · rw [hnames]
      exact h.namesKeyed
    · rw [hnames, hrules]
      exact h.listed
    · rw [hrules]
      exact h.literal
  | user _ _ hliteral _ => exact h.insert .user hliteral
  | hook _ _ => exact h.insert _ fun _ hnone ↦ by cases hnone
  | @transposition source c _ _ =>
    refine (h.takeName c).insert _ fun name hname ↦ ?_
    cases hname
    rfl
  | detach => exact h.detach _
  | retitle hr _ => exact h.retitle hr

theorem ReachableBy.listed (h : s.ReachableBy p) : s.Listed :=
  h.of_changes listed_empty fun _ _ _ hs ↦ hs.change

theorem mem_named {p : Predicate} {t n : Term} {x : Rule} (hkeyed : s.names.Keyed)
    (hentry : (p, x.id) ∈ s.names.entries) (hp : t.predicate? = some p)
    (hfound : s.rule? x.id = some x) (hname : x.name = some n) (h : n.unifies t = true) :
    x.id ∈ s.named t := by
  simp only [named, hp, List.mem_filter, hkeyed.mem_ids]
  refine ⟨hentry, ?_⟩
  rw [hfound, Option.bind_some, hname, Option.any_some]
  exact h

theorem exists_of_mem_named {t : Term} {id : RuleId} (hid : id ∈ s.named t) :
    ∃ r ∈ s.rules, r.id = id ∧ ∃ n, r.name = some n ∧ n.unifies t = true := by
  rw [named] at hid
  split at hid
  · have hunifies := (List.mem_filter.mp hid).2
    cases hr : s.rule? id with
    | none =>
      rw [hr] at hunifies
      cases hunifies
    | some r =>
      rw [hr, Option.bind_some] at hunifies
      cases hn : r.name with
      | none =>
        rw [hn] at hunifies
        cases hunifies
      | some n =>
        rw [hn] at hunifies
        exact ⟨r, (of_rule? hr).1, (of_rule? hr).2, n, hn, hunifies⟩
  · cases hid

theorem Listed.mem_named_iff (h : s.Listed) {t : Term} (ht : t.isLiteral = true) {id : RuleId} :
    id ∈ s.named t ↔ ∃ r ∈ s.rules, r.id = id ∧ ∃ n, r.name = some n ∧ n.unifies t = true := by
  refine ⟨exists_of_mem_named, ?_⟩
  rintro ⟨r, hr, rfl, n, hn, hunifies⟩
  obtain ⟨p, hp⟩ := Term.predicate?_isSome ht
  have hnaming := Rule.naming?_of_unifies hn (h.literal r hr n hn) hp hunifies
  refine mem_named h.namesKeyed ?_ hp (h.rule?_eq_some hr) hn hunifies
  exact h.listed.mem_iff.mpr (List.mem_filterMap.mpr ⟨r, hr, hnaming⟩)

theorem exists_of_isRuleName {t : Term} (h : s.isRuleName t = true) :
    ∃ r ∈ s.rules, ∃ n, r.name = some n ∧ n.unifies t = true := by
  rw [isRuleName, Bool.not_eq_true', List.isEmpty_eq_false_iff_exists_mem] at h
  obtain ⟨id, hid⟩ := h
  obtain ⟨r, hr, -, hnamed⟩ := exists_of_mem_named hid
  exact ⟨r, hr, hnamed⟩

theorem isRuleName_of_mem {t : Term} {id : RuleId} (h : id ∈ s.named t) :
    s.isRuleName t = true := by
  rw [isRuleName, Bool.not_eq_true', List.isEmpty_eq_false_iff_exists_mem]
  exact ⟨id, h⟩

/-- A term names a rule exactly if the name of a stored rule unifies with it. -/
theorem Listed.isRuleName_iff (h : s.Listed) {t : Term} (ht : t.isLiteral = true) :
    s.isRuleName t = true ↔ ∃ r ∈ s.rules, ∃ n, r.name = some n ∧ n.unifies t = true := by
  refine ⟨exists_of_isRuleName, ?_⟩
  rintro ⟨r, hr, hnamed⟩
  exact isRuleName_of_mem ((h.mem_named_iff ht).mpr ⟨r, hr, rfl, hnamed⟩)

end RuleStore

end Argumentation
