import Argumentation.Proofs.RuleStore.Changes

namespace Argumentation

namespace Catalogue

structure Tallies (c : Catalogue) (ps : List Predicate) : Prop where
  nodup : (c.map Prod.fst).Nodup
  lookup : ∀ p, c.lookup p = if p ∈ ps then some (ps.count p) else none

variable {c c' : Catalogue} {ps qs keys : List Predicate} {p : Predicate}

theorem Tallies.perm (h : c.Tallies ps) (hps : ps.Perm qs) : c.Tallies qs := by
  refine ⟨h.nodup, fun p ↦ ?_⟩
  rw [h.lookup, hps.count_eq]
  simp only [hps.mem_iff]

theorem lookup_cons (c : Catalogue) (p q : Predicate) (n : ℕ) :
    List.lookup p ((q, n) :: c) = if p = q then some n else c.lookup p := by
  rw [List.lookup_cons]
  split <;> simp_all

theorem lookup_enter (p q : Predicate) :
    (c.enter p).lookup q = if q = p then some (c.count p + 1) else c.lookup q := by
  induction c with
  | nil =>
    rw [enter, lookup_cons]
    rfl
  | cons e c ih =>
    obtain ⟨k, n⟩ := e
    rw [enter, count, lookup_cons, lookup_cons]
    by_cases hk : k = p
    · subst hk
      simp only [if_true, Option.getD_some, lookup_cons]
      split <;> rfl
    · rw [if_neg hk, lookup_cons, ih, if_neg (Ne.symm hk), count]
      by_cases hq : q = k
      · subst hq
        simp [hk]
      · rw [if_neg hq, if_neg hq]

theorem lookup_strike (h : (c.map Prod.fst).Nodup) (p q : Predicate) :
    (c.strike p).lookup q =
      if q = p then (c.lookup p).bind fun n ↦ if n ≤ 1 then none else some (n - 1)
      else c.lookup q := by
  induction c with
  | nil => simp [strike]
  | cons e c ih =>
    obtain ⟨k, n⟩ := e
    obtain ⟨hk', hc⟩ := List.nodup_cons.mp h
    rw [strike, lookup_cons, lookup_cons]
    by_cases hk : k = p
    · subst hk
      -- The predicate had no other count, so without this one it has none.
      have hnone : c.lookup k = none := by
        rw [List.lookup_eq_none_iff]
        intro e he
        rw [bne_iff_ne]
        rintro rfl
        exact hk' (List.mem_map.mpr ⟨e, he, rfl⟩)
      by_cases hn : n ≤ 1
      · simp only [if_true, if_pos hn, Option.bind_some]
        split
        · rename_i hq
          rw [hq, hnone]
        · rfl
      · simp only [if_true, if_neg hn, Option.bind_some, lookup_cons]
        split <;> rfl
    · rw [if_neg hk, lookup_cons, ih hc, if_neg (Ne.symm hk)]
      by_cases hq : q = k
      · subst hq
        simp [hk]
      · rw [if_neg hq, if_neg hq]

theorem keys_enter (p : Predicate) : (c.enter p).map Prod.fst =
    if p ∈ c.map Prod.fst then c.map Prod.fst else c.map Prod.fst ++ [p] := by
  induction c with
  | nil => rfl
  | cons e c ih =>
    obtain ⟨k, n⟩ := e
    rw [enter]
    by_cases hk : k = p
    · simp [hk]
    · rw [if_neg hk, List.map_cons, ih]
      split <;> simp_all [eq_comm]

theorem keys_strike (p : Predicate) :
    ((c.strike p).map Prod.fst).Sublist (c.map Prod.fst) := by
  induction c with
  | nil => exact .slnil
  | cons e c ih =>
    obtain ⟨k, n⟩ := e
    rw [strike]
    split
    · split
      · exact List.sublist_cons_self _ _
      · exact .refl _
    · exact ih.cons_cons k

theorem Tallies.enter (h : c.Tallies ps) (p : Predicate) : (c.enter p).Tallies (p :: ps) := by
  refine ⟨?_, fun q ↦ ?_⟩
  · rw [keys_enter]
    split
    · exact h.nodup
    · exact List.Nodup.append h.nodup (List.nodup_singleton p) (List.disjoint_singleton.mpr ‹_›)
  · rw [lookup_enter, count, h.lookup, h.lookup]
    by_cases hq : q = p
    · subst hq
      by_cases hmem : q ∈ ps <;> simp [hmem, List.count_eq_zero_of_not_mem]
    · simp [hq, List.count_cons_of_ne (Ne.symm hq)]

theorem Tallies.strike (h : c.Tallies (p :: ps)) : (c.strike p).Tallies ps := by
  refine ⟨h.nodup.sublist (keys_strike p), fun q ↦ ?_⟩
  rw [lookup_strike h.nodup, h.lookup, h.lookup]
  by_cases hq : q = p
  · subst hq
    by_cases hmem : q ∈ ps
    · have hcount : ps.count q ≠ 0 := Nat.ne_of_gt (List.count_pos_iff.mpr hmem)
      simp [hmem, hcount]
    · simp [hmem, List.count_eq_zero_of_not_mem]
  · simp [hq, List.count_cons_of_ne (Ne.symm hq)]

theorem Tallies.record (h : c.Tallies ps) (r : Rule) :
    (c.record r).Tallies (r.predicates ++ ps) := by
  rw [Catalogue.record]
  generalize r.predicates = new
  induction new generalizing c ps with
  | nil => exact h
  | cons p new ih => exact (ih (h.enter p)).perm List.perm_middle

theorem Tallies.forget {r : Rule} (h : c.Tallies (r.predicates ++ ps)) :
    (c.forget r).Tallies ps := by
  revert h
  rw [Catalogue.forget]
  generalize r.predicates = old
  induction old generalizing c with
  | nil => exact id
  | cons p old ih => exact fun h ↦ ih h.strike

theorem Tallies.contains (h : c.Tallies ps) : c.contains p = true ↔ p ∈ ps := by
  rw [Catalogue.contains, h.lookup]
  by_cases hp : p ∈ ps <;> simp [hp]

theorem keys_forget (c : Catalogue) (r : Rule) :
    ((c.forget r).map Prod.fst).Sublist (c.map Prod.fst) := by
  rw [forget]
  induction r.predicates generalizing c with
  | nil => exact .refl _
  | cons p old ih => exact (ih (c.strike p)).trans (keys_strike p)

theorem keys_record (c : Catalogue) (r : Rule) :
    (c.map Prod.fst).Sublist ((c.record r).map Prod.fst) := by
  rw [record]
  induction r.predicates generalizing c with
  | nil => exact .refl _
  | cons p new ih =>
    have hnew : (c.map Prod.fst).Sublist ((c.enter p).map Prod.fst) := by
      rw [keys_enter]
      split
      · exact .refl _
      · exact List.sublist_append_left _ _
    exact hnew.trans (ih (c.enter p))

theorem lookup_of_mem (h : (c.map Prod.fst).Nodup) {e : Predicate × ℕ} (he : e ∈ c) :
    c.lookup e.1 = some e.2 := by
  obtain ⟨l₁, l₂, rfl⟩ := List.append_of_mem he
  rw [List.map_append, List.map_cons, List.nodup_append] at h
  refine List.lookup_eq_some_iff.mpr ⟨l₁, l₂, rfl, fun e' he' ↦ ?_⟩
  rw [bne_iff_ne]
  exact (h.2.2 e'.1 (List.mem_map.mpr ⟨e', he', rfl⟩) e.1 (.head _)).symm

theorem Tallies.eq_map_count (h : c.Tallies ps) :
    c = (c.map Prod.fst).map fun p ↦ (p, ps.count p) := by
  rw [List.map_map]
  conv => lhs; rw [← List.map_id c]
  refine List.map_congr_left fun e he ↦ ?_
  have hlookup := lookup_of_mem h.nodup he
  rw [h.lookup, Option.ite_none_right_eq_some] at hlookup
  exact Prod.ext rfl (Option.some.inj hlookup.2).symm

theorem Tallies.mem_keys (h : c.Tallies ps) : p ∈ c.map Prod.fst ↔ p ∈ ps := by
  constructor
  · intro hp
    obtain ⟨e, he, rfl⟩ := List.mem_map.mp hp
    have hlookup := lookup_of_mem h.nodup he
    rw [h.lookup, Option.ite_none_right_eq_some] at hlookup
    exact hlookup.1
  · intro hp
    have hlookup := h.lookup p
    rw [if_pos hp] at hlookup
    obtain ⟨l₁, l₂, hsplit, -⟩ := List.lookup_eq_some_iff.mp hlookup
    rw [hsplit]
    exact List.mem_map.mpr ⟨_, List.mem_append_right _ (.head _), rfl⟩

/-- What is counted and the order in which it is kept make up a catalogue. -/
theorem Tallies.eq_of_sublist (h : c.Tallies ps) (h' : c'.Tallies ps) (hkeys : keys.Nodup)
    (hc : (c.map Prod.fst).Sublist keys) (hc' : (c'.map Prod.fst).Sublist keys) : c = c' := by
  have hperm : (c.map Prod.fst).Perm (c'.map Prod.fst) :=
    (List.perm_ext_iff_of_nodup h.nodup h'.nodup).mpr fun p ↦ h.mem_keys.trans h'.mem_keys.symm
  rw [h.eq_map_count, h'.eq_map_count, (hkeys.perm_iff_eq_of_sublist hc hc').mp hperm]

end Catalogue

namespace RuleStore

variable {s s' : RuleStore} {p : Rule → Prop}

def Tallied (s : RuleStore) : Prop :=
  s.catalogue.Tallies (s.rules.flatMap Rule.predicates)

theorem Tallied.insert (h : s.Tallied) (r : Rule) (origin : Origin) :
    (s.insert r origin).Tallied := by
  rw [Tallied, rules_insert, List.flatMap_append, List.flatMap_singleton]
  exact (Catalogue.Tallies.record h { r with id := s.nextId, origin }).perm List.perm_append_comm

theorem Tallied.detach (hs : s.Indexed) (h : s.Tallied) (id : RuleId) : (s.detach id).Tallied := by
  cases hr : s.rule? id with
  | none =>
    rw [RuleStore.detach, hr]
    exact h
  | some r =>
    obtain ⟨hmem, rfl⟩ := of_rule? hr
    have hsplit := h.perm ((hs.perm_cons hmem).flatMap_right _)
    rw [RuleStore.detach, hr]
    exact hsplit.forget

theorem Tallied.retitle (hs : s.Indexed) (h : s.Tallied) {r : Rule} (hr : r ∈ s.rules) :
    (s.retitle r).Tallied := by
  obtain ⟨nextName, heq⟩ := s.retitle_eq r
  rw [heq]
  have hsplit : s.catalogue.Tallies
      ((r.withAutoName (s.newName r) :: s.rules.filter (·.id != r.id)).flatMap Rule.predicates) :=
    h.perm ((hs.perm_cons hr).flatMap_right _)
  exact hsplit.perm ((hs.perm_replace hr _).flatMap_right _).symm

theorem Tallied.change (hs : s.Indexed) (h : s.Tallied) (hchange : Change p s s') :
    s'.Tallied := by
  cases hchange with
  | aside hrules _ _ hcatalogue _ _ =>
    rw [Tallied, hrules, hcatalogue]
    exact h
  | user => exact h.insert _ _
  | hook => exact h.insert _ _
  | @transposition source c _ _ => exact Tallied.insert (s := (s.takeName c).2) h _ _
  | detach => exact h.detach hs _
  | retitle hr _ => exact h.retitle hs hr

theorem ReachableBy.tallied (h : s.ReachableBy p) : s.Tallied :=
  h.of_changes (fun _ ↦ ⟨.nil, fun _ ↦ rfl⟩) fun _ _ hs ht ↦ ht.change hs

end RuleStore

end Argumentation
