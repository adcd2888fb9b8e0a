import Argumentation.Proofs.Substitution.Entries

namespace Argumentation.Substitution

variable {kind : Term → Prop} {composable : Substitution → Substitution → Prop}
  {s u w : Substitution} {v : Variable} {t l r : Term}

/-- Made from nothing by binding, merging, composing and unifying, with terms of one kind and with
compositions of some pairs only. Unification may go to any depth: what it ends with, if it ends, is
what it comes to at some depth. -/
inductive Made (kind : Term → Prop) (composable : Substitution → Substitution → Prop) :
    Substitution → Prop
  | empty : Made kind composable empty
  | add {s : Substitution} {t : Term} (v : Variable) :
      Made kind composable s → kind t → Made kind composable (s.add v t)
  | merge {s u : Substitution} :
      Made kind composable s → Made kind composable u → Made kind composable (s.merge u)
  | compose {s u : Substitution} :
      Made kind composable s → Made kind composable u → composable s u →
      Made kind composable (s.compose u)
  | unify {s : Substitution} {l r : Term} (n : ℕ) :
      Made kind composable s → kind l → kind r → Made kind composable (unifyWithin n l r s)

abbrev Reachable : Substitution → Prop :=
  Made (fun _ ↦ True) fun _ _ ↦ True

theorem Made.wellFormed (h : s.Made kind composable) : s.WellFormed := by
  induction h with
  | empty => exact wellFormed_empty
  | add v _ _ ih => exact ih.add v _
  | merge _ _ ih _ => exact ih.merge _
  | compose _ _ _ ih _ => exact ih.compose _
  | unify n _ _ _ ih => exact ih.unifyWithin n _ _

/-- The second substitution is the first one after more has been put into it. -/
inductive Updates : Substitution → Substitution → Prop
  | add (s : Substitution) (v : Variable) (t : Term) : Updates s (s.add v t)
  | merge (s u : Substitution) : Updates s (s.merge u)
  | unify (s : Substitution) (n : ℕ) (l r : Term) : Updates s (unifyWithin n l r s)

/-- The second substitution is made of the first one, whichever operand that is. -/
inductive Feeds : Substitution → Substitution → Prop
  | update {s u : Substitution} : Updates s u → Feeds s u
  | merged (s u : Substitution) : Feeds u (s.merge u)
  | compose (s u : Substitution) : Feeds s (s.compose u)
  | composed (s u : Substitution) : Feeds u (s.compose u)

theorem Updates.le (h : Updates s u) : s ≤ u := by
  cases h with
  | add v t => exact s.le_add v t
  | merge w => exact s.le_merge w
  | unify n l r => exact s.le_unifyWithin n l r

theorem Updates.wellFormed (h : Updates s u) (hs : s.WellFormed) : u.WellFormed := by
  cases h with
  | add v t => exact hs.add v t
  | merge w => exact hs.merge w
  | unify n l r => exact hs.unifyWithin n l r

theorem le_of_updates (h : Relation.ReflTransGen Updates s u) : s ≤ u := by
  induction h with
  | refl => exact le_rfl
  | tail _ hstep ih => exact ih.trans hstep.le

theorem wellFormed_of_updates (h : Relation.ReflTransGen Updates s u) (hs : s.WellFormed) :
    u.WellFormed := by
  induction h with
  | refl => exact hs
  | tail _ hstep ih => exact hstep.wellFormed ih

theorem WellFormed.kept_or_banned (hs : s.WellFormed) (hu : u.WellFormed) (h : s ≤ u)
    (hv : s.get? v = some t) : u.get? v = some t ∨ u.get? v = none ∧ u.isBanned v = true := by
  have hle := h.1 v
  rw [hs.entry_eq_bound.mpr hv, Entry.bound_le_iff] at hle
  refine hle.imp hu.entry_eq_bound.mp fun hentry ↦ ?_
  have hbanned := entry_eq_banned.mp hentry
  exact ⟨hu.apart v hbanned, hbanned⟩

structure Inherits (u s : Substitution) : Prop where
  banned : ∀ v, s.isBanned v = true → u.isBanned v = true
  clashed : s.clashed = true → u.clashed = true

theorem Inherits.trans (h : w.Inherits u) (h' : u.Inherits s) : w.Inherits s :=
  ⟨fun v hv ↦ h.banned v (h'.banned v hv), h.clashed ∘ h'.clashed⟩

theorem inherits_of_le (h : s ≤ u) : u.Inherits s :=
  ⟨fun _ ↦ isBanned_of_le h, h.2⟩

theorem Inherits.isConsistent (h : u.Inherits s) (hu : u.isConsistent = true) :
    s.isConsistent = true := by
  rw [isConsistent_iff] at hu ⊢
  refine ⟨fun v hv ↦ hu.1 v ?_, Bool.eq_false_of_not_eq_true fun hc ↦ ?_⟩
  · exact entry_eq_banned.mpr (h.banned v (entry_eq_banned.mp hv))
  · rw [h.clashed hc] at hu
    exact absurd hu.2 (by simp)

/-- The bans of the second operand come first, and no binding takes them away. -/
theorem inherits_merge (s u : Substitution) : (s.merge u).Inherits u := by
  refine ⟨fun v hv ↦ ?_, fun hc ↦ ?_⟩
  · have hbanned : (u.banned.foldl ban s).isBanned v = true := by
      rw [← entry_eq_banned, entry_foldl_ban, if_pos (List.contains_iff_mem.mp hv)]
    have hbound := isBanned_of_le (le_foldl_add u.bindings _) hbanned
    exact hbound
  · exact (congrArg (s.clashed || ·) hc).trans (Bool.or_true _)

theorem Feeds.inherits (h : Feeds s u) : u.Inherits s := by
  cases h with
  | update h => exact inherits_of_le h.le
  | merged w => exact inherits_merge w s
  | compose _ w =>
    -- Rewritten values change nothing about bans.
    have hunder : (s.under w).Inherits s := ⟨fun _ hv ↦ hv, id⟩
    exact (inherits_of_le ((s.under w).le_merge w)).trans hunder
  | composed w => exact inherits_merge (w.under s) s

theorem inherits_of_feeds (h : Relation.ReflTransGen Feeds s u) : u.Inherits s := by
  induction h with
  | refl => exact inherits_of_le le_rfl
  | tail _ hstep ih => exact hstep.inherits.trans ih

/-- No variable is both bound and banned; bans and clashes are for good in whatever is made of a
substitution; and a binding is kept as it is, or taken away by a ban, when more is put into it. -/
theorem Reachable.bans_permanent (hs : s.Reachable) :
    (∀ v, s.isBanned v = true → s.isBound v = false) ∧
      (∀ u, Relation.ReflTransGen Feeds s u →
        (∀ v, s.isBanned v = true → u.isBanned v = true) ∧
          (s.clashed = true → u.clashed = true) ∧
            (s.isConsistent = false → u.isConsistent = false)) ∧
      ∀ u, Relation.ReflTransGen Updates s u → ∀ v t, s.get? v = some t →
        u.get? v = some t ∨ u.get? v = none ∧ u.isBanned v = true := by
  refine ⟨fun v hv ↦ ?_, fun u hu ↦ ?_, fun u hu v t hv ↦ ?_⟩
  · rw [isBound, hs.wellFormed.apart v hv, Option.isSome_none]
  · have hinherits := inherits_of_feeds hu
    refine ⟨hinherits.banned, hinherits.clashed, fun hc ↦ ?_⟩
    refine Bool.eq_false_of_not_eq_true fun hconsistent ↦ ?_
    rw [hinherits.isConsistent hconsistent] at hc
    cases hc
  · have hu' := wellFormed_of_updates hu hs.wellFormed
    exact hs.wellFormed.kept_or_banned hu' (le_of_updates hu) hv

def agreed : Substitution :=
  (empty.add ⟨"X", 1⟩ (.const "a")).add ⟨"Y", 2⟩ (.app (.name "f") [.var ⟨"Z", 3⟩])

def rival : Substitution :=
  empty.add ⟨"X", 1⟩ (.const "b")

theorem agreed_reachable : agreed.Reachable :=
  .add _ (.add _ .empty trivial) trivial

theorem rival_reachable : rival.Reachable :=
  .add _ .empty trivial

/-- The variable that the two substitutions do not agree on is banned, and the other one is bound as
before. -/
theorem agreed_rival_permanent :
    ((agreed.merge rival).Reachable ∧ (agreed.merge rival).isBanned ⟨"X", 1⟩ = true ∧
      (agreed.merge rival).isBound ⟨"X", 1⟩ = false) ∧
    (Relation.ReflTransGen Feeds (agreed.merge rival) (rival.compose (agreed.merge rival)) ∧
      (agreed.merge rival).isConsistent = false ∧
        (rival.compose (agreed.merge rival)).isBanned ⟨"X", 1⟩ = true ∧
          (rival.compose (agreed.merge rival)).isConsistent = false) ∧
    agreed.Reachable ∧ Relation.ReflTransGen Updates agreed (agreed.merge rival) ∧
      agreed.get? ⟨"X", 1⟩ = some (.const "a") ∧ (agreed.merge rival).get? ⟨"X", 1⟩ = none ∧
        (agreed.merge rival).get? ⟨"Y", 2⟩ = some (.app (.name "f") [.var ⟨"Z", 3⟩]) := by
  have hreachable : (agreed.merge rival).Reachable := .merge agreed_reachable rival_reachable
  have hfeeds : Relation.ReflTransGen Feeds (agreed.merge rival)
      (rival.compose (agreed.merge rival)) := .single (.composed _ _)
  have hupdates : Relation.ReflTransGen Updates agreed (agreed.merge rival) := .single (.merge _ _)
  have hbanned : (agreed.merge rival).isBanned ⟨"X", 1⟩ = true := by decide
  have hinconsistent : (agreed.merge rival).isConsistent = false := by decide
  obtain ⟨hapart, hfed, -⟩ := hreachable.bans_permanent
  obtain ⟨-, -, hkept⟩ := agreed_reachable.bans_permanent
  obtain ⟨hbans, -, hc⟩ := hfed _ hfeeds
  refine ⟨⟨hreachable, hbanned, hapart _ hbanned⟩,
    ⟨hfeeds, hinconsistent, hbans _ hbanned, hc hinconsistent⟩,
    agreed_reachable, hupdates, rfl, ?_, ?_⟩
  · rcases hkept _ hupdates ⟨"X", 1⟩ (.const "a") rfl with h | h
    · cases h
    · exact h.1
  · refine (hkept _ hupdates ⟨"Y", 2⟩ _ rfl).resolve_right fun h ↦ ?_
    cases h.1

end Argumentation.Substitution
