import Mathlib.Order.Bounds.Basic
import Argumentation.Proofs.Substitution.SelfBindings

namespace Argumentation.Substitution

variable {s u w s' u' x : Substitution} {v : Variable}

theorem isLUB_pair_iff {α : Type} [Preorder α] {a b c : α} :
    IsLUB {a, b} c ↔ ∀ d, c ≤ d ↔ a ≤ d ∧ b ≤ d := by
  simp [isLUB_iff_le_iff]

namespace Entry

variable {e e' d : Entry} {t t' : Term}

theorem unbound_lt_bound (t : Term) : unbound < bound t := by
  refine lt_of_le_of_ne (unbound_le _) fun h ↦ ?_
  cases h

theorem bound_lt_banned (t : Term) : bound t < banned := by
  refine lt_of_le_of_ne (le_banned _) fun h ↦ ?_
  cases h

theorem isLUB_of_ne (h : t ≠ t') : IsLUB {bound t, bound t'} banned := by
  refine isLUB_pair_iff.mpr fun d ↦ ⟨fun hd ↦ ?_, fun ⟨hd, hd'⟩ ↦ ?_⟩
  · rw [banned_le_iff.mp hd]
    exact ⟨le_banned _, le_banned _⟩
  · rcases bound_le_iff.mp hd with rfl | rfl
    · rcases bound_le_iff.mp hd' with heq | heq
      · cases heq
        exact absurd rfl h
      · cases heq
    · exact le_rfl

/-- Two terms that are compared without doubles are joined to the one or to a ban. -/
theorem merge_le_iff (hexact : ∀ t, e = bound t → t.isExact = true) (hself : e' ≠ bound (.var v)) :
    e.merge v e' ≤ d ↔ e ≤ d ∧ e' ≤ d := by
  cases e' with
  | unbound => exact (and_iff_left (unbound_le d)).symm
  | banned =>
    rw [merge, banned_le_iff]
    constructor
    · rintro rfl
      exact ⟨le_banned _, rfl⟩
    · exact fun h ↦ h.2
  | bound t =>
    have hvar : ¬t.same (.var v) = true := fun h ↦ hself (congrArg _ (Term.same_var_iff.mp h))
    cases e with
    | unbound =>
      rw [merge, bind, if_neg hvar]
      exact (and_iff_right (unbound_le d)).symm
    | banned =>
      rw [merge, bind]
      constructor
      · intro h
        exact ⟨h, (le_banned _).trans h⟩
      · exact fun h ↦ h.1
    | bound r =>
      have hr := hexact r rfl
      by_cases hsame : r.same t = true
      · obtain rfl := (Term.same_iff hr).mp hsame
        rw [merge, bind, if_pos (by rw [hsame, Bool.or_true]), and_self]
      · rw [merge, bind, if_neg (by simp [hvar, hsame])]
        exact isLUB_pair_iff.mp (isLUB_of_ne fun h ↦ hsame ((Term.same_iff hr).mpr h)) d

end Entry

/-- Made of terms without doubles, and without compositions, which would compute with them. -/
abbrev Collected : Substitution → Prop :=
  Made (fun t ↦ t.isExact = true) fun _ _ ↦ False

theorem Collected.selfFree (hs : s.Collected) : s.SelfFree :=
  Made.selfFree (fun _ _ h ↦ h.elim) hs

theorem Collected.isExact (hs : s.Collected) : s.IsExact := by
  induction hs with
  | empty => exact consistsOf_empty
  | add v hs ht ih =>
    intro x r hx
    rw [← (hs.wellFormed.add v _).entry_eq_bound, entry_add] at hx
    split at hx
    · rcases Entry.bind_eq_bound hx with hx | ⟨rfl, -⟩
      · exact ih v r (get?_of_entry hx)
      · exact ht
    · exact ih x r (get?_of_entry hx)
  | merge hs hu ihs ihu =>
    intro x r hx
    rw [← (hs.wellFormed.merge _).entry_eq_bound, entry_merge hu.wellFormed] at hx
    rcases Entry.merge_eq_bound hx with hx | hx
    · exact ihs x r (get?_of_entry hx)
    · exact ihu x r (get?_of_entry hx)
  | compose _ _ h _ _ => exact h.elim
  | unify n _ hl hr ih => exact (solves_unifyWithin n _ _ _).consistsOf ih (by simp [hl, hr])

theorem Collected.entry_merge_le_iff (hs : s.Collected) (hu : u.Collected) {d : Entry} :
    (s.merge u).entry v ≤ d ↔ s.entry v ≤ d ∧ u.entry v ≤ d := by
  rw [entry_merge hu.wellFormed]
  exact Entry.merge_le_iff (fun t ht ↦ hs.isExact v t (get?_of_entry ht)) (hu.selfFree v)

theorem clashed_merge (s u : Substitution) : (s.merge u).clashed = (s.clashed || u.clashed) :=
  rfl

theorem Collected.merge_le_iff (hs : s.Collected) (hu : u.Collected) :
    s.merge u ≤ x ↔ s ≤ x ∧ u ≤ x := by
  have hclashed : ((s.merge u).clashed = true → x.clashed = true) ↔
      (s.clashed = true → x.clashed = true) ∧ (u.clashed = true → x.clashed = true) := by
    rw [clashed_merge, Bool.or_eq_true, or_imp]
  have hentries : (∀ v, (s.merge u).entry v ≤ x.entry v) ↔
      (∀ v, s.entry v ≤ x.entry v) ∧ ∀ v, u.entry v ≤ x.entry v := by
    rw [← forall_and]
    exact forall_congr' fun v ↦ hs.entry_merge_le_iff hu
  exact (and_congr hentries hclashed).trans and_and_and_comm

theorem WellFormed.mem_keys_iff (hs : s.WellFormed) :
    v ∈ s.bindings.map Prod.fst ↔ ∃ t, s.entry v = .bound t := by
  constructor
  · intro hv
    obtain ⟨⟨x, t⟩, hmem, rfl⟩ := List.mem_map.mp hv
    exact ⟨t, hs.entry_eq_bound.mpr ((Bindings.lookup_eq_some_iff hs.boundOnce).mpr hmem)⟩
  · intro ⟨t, ht⟩
    exact mem_keys (get?_of_entry ht)

theorem mem_banned_iff : v ∈ s.banned ↔ s.entry v = .banned := by
  rw [entry_eq_banned, isBanned, List.contains_iff_mem]

/-- Substitutions with the same entries are the same, however these are arranged. -/
theorem WellFormed.same (hs : s.WellFormed) (hu : u.WellFormed) (hexact : s.IsExact)
    (h : ∀ v, s.entry v = u.entry v) (hc : s.clashed = u.clashed) : s.same u = true := by
  have hkeys : (s.bindings.map Prod.fst).Perm (u.bindings.map Prod.fst) := by
    refine (List.perm_ext_iff_of_nodup hs.boundOnce hu.boundOnce).mpr fun v ↦ ?_
    rw [hs.mem_keys_iff, hu.mem_keys_iff, h v]
  have hbanned : s.banned.Perm u.banned := by
    refine (List.perm_ext_iff_of_nodup hs.bannedOnce hu.bannedOnce).mpr fun v ↦ ?_
    rw [mem_banned_iff, mem_banned_iff, h v]
  have hlength : s.bindings.length = u.bindings.length := by
    simpa using hkeys.length_eq
  have hbindings : ∀ e ∈ s.bindings, (u.get? e.1).any e.2.same = true := by
    intro e he
    have ht := (Bindings.lookup_eq_some_iff hs.boundOnce).mpr he
    have hentry := hs.entry_eq_bound.mpr ht
    rw [h] at hentry
    rw [get?_of_entry hentry]
    exact Term.same_self (hexact _ _ ht)
  have hbans : ∀ v ∈ s.banned, u.isBanned v = true := fun v hv ↦
    List.contains_iff_mem.mpr (hbanned.mem_iff.mp hv)
  simp only [Substitution.same, hlength, hbanned.length_eq, hc, beq_self_eq_true,
    Bool.and_eq_true, List.all_eq_true, Bool.and_true, true_and]
  exact ⟨hbindings, hbans⟩

/-- The same bindings and bans, kept in another order. -/
structure Rearranges (s' s : Substitution) : Prop where
  bindings : s'.bindings.Perm s.bindings
  banned : s'.banned.Perm s.banned
  clashed : s'.clashed = s.clashed

theorem Rearranges.isBanned (h : s'.Rearranges s) (v : Variable) :
    s'.isBanned v = s.isBanned v :=
  h.banned.contains_eq

theorem Rearranges.get? (h : s'.Rearranges s) (hs : s.WellFormed) (v : Variable) :
    s'.get? v = s.get? v := by
  have hnodup := (h.bindings.map Prod.fst).nodup_iff.mpr hs.boundOnce
  ext t
  exact (Bindings.lookup_eq_some_iff hnodup).trans
    (h.bindings.mem_iff.trans (Bindings.lookup_eq_some_iff hs.boundOnce).symm)

theorem Rearranges.entry (h : s'.Rearranges s) (hs : s.WellFormed) (v : Variable) :
    s'.entry v = s.entry v := by
  rw [Substitution.entry, Substitution.entry, h.isBanned, h.get? hs]

theorem Rearranges.wellFormed (h : s'.Rearranges s) (hs : s.WellFormed) : s'.WellFormed where
  boundOnce := (h.bindings.map Prod.fst).nodup_iff.mpr hs.boundOnce
  bannedOnce := h.banned.nodup_iff.mpr hs.bannedOnce
  apart v hv := by
    rw [h.isBanned] at hv
    rw [h.get? hs, hs.apart v hv]

theorem Collected.same (hs : s.Collected) (hu : u.WellFormed) (h : ∀ v, s.entry v = u.entry v)
    (hc : s.clashed = u.clashed) : s.same u = true :=
  hs.wellFormed.same hu hs.isExact h hc

theorem Collected.merge_comm (hs : s.Collected) (hu : u.Collected) :
    (s.merge u).same (u.merge s) = true := by
  refine Collected.same (.merge hs hu) (hu.wellFormed.merge s) (fun v ↦ ?_) (Bool.or_comm _ _)
  refine eq_of_forall_ge_iff fun d ↦ ?_
  rw [hs.entry_merge_le_iff hu, hu.entry_merge_le_iff hs, and_comm]

theorem Collected.merge_assoc (hs : s.Collected) (hu : u.Collected) (hw : w.Collected) :
    ((s.merge u).merge w).same (s.merge (u.merge w)) = true := by
  have hsu : (s.merge u).Collected := .merge hs hu
  have huw : (u.merge w).Collected := .merge hu hw
  refine Collected.same (.merge hsu hw) (hs.wellFormed.merge _) (fun v ↦ ?_) (Bool.or_assoc _ _ _)
  refine eq_of_forall_ge_iff fun d ↦ ?_
  rw [hsu.entry_merge_le_iff hw, hs.entry_merge_le_iff hu, hs.entry_merge_le_iff huw,
    hu.entry_merge_le_iff hw, and_assoc]

theorem Collected.merge_self (hs : s.Collected) : (s.merge s).same s = true := by
  refine Collected.same (.merge hs hs) hs.wellFormed (fun v ↦ ?_) (Bool.or_self _)
  refine eq_of_forall_ge_iff fun d ↦ ?_
  rw [hs.entry_merge_le_iff hs, and_self]

theorem Collected.merge_rearranged (hs : s.Collected) (hu : u.Collected) (hs' : s'.Rearranges s)
    (hu' : u'.Rearranges u) : (s.merge u).same (s'.merge u') = true := by
  have hwell := hu'.wellFormed hu.wellFormed
  refine Collected.same (.merge hs hu) ((hs'.wellFormed hs.wellFormed).merge u') (fun v ↦ ?_) ?_
  · rw [entry_merge hu.wellFormed, entry_merge hwell, hs'.entry hs.wellFormed,
      hu'.entry hu.wellFormed]
  · rw [clashed_merge, clashed_merge, hs'.clashed, hu'.clashed]

/-- A merge is the least substitution above both, with the least entry above both for each variable;
so it may be done in any order, more than once, and with bindings and bans in any order. Nothing is
below a term, a term is below a ban, and only a ban is above two different terms. -/
theorem Collected.isLUB_merge (hs : s.Collected) (hu : u.Collected) (hw : w.Collected) :
    (IsLUB {s, u} (s.merge u) ∧ ∀ v, IsLUB {s.entry v, u.entry v} ((s.merge u).entry v)) ∧
      ((∀ t, Entry.unbound < .bound t ∧ Entry.bound t < .banned) ∧
        ∀ t t', t ≠ t' → IsLUB {Entry.bound t, .bound t'} .banned) ∧
      ((s.merge u).same (u.merge s) = true ∧
        ((s.merge u).merge w).same (s.merge (u.merge w)) = true ∧ (s.merge s).same s = true) ∧
      ∀ s' u' : Substitution, s'.Rearranges s → u'.Rearranges u →
        (s.merge u).same (s'.merge u') = true :=
  ⟨⟨isLUB_pair_iff.mpr fun _ ↦ hs.merge_le_iff hu,
      fun _ ↦ isLUB_pair_iff.mpr fun _ ↦ hs.entry_merge_le_iff hu⟩,
    ⟨fun t ↦ ⟨Entry.unbound_lt_bound t, Entry.bound_lt_banned t⟩, fun _ _ ↦ Entry.isLUB_of_ne⟩,
    ⟨hs.merge_comm hu, hs.merge_assoc hu hw, hs.merge_self⟩,
    fun _ _ ↦ hs.merge_rearranged hu⟩

def numbered : Substitution :=
  empty.add ⟨"Z", 3⟩ (.num (.int 1))

theorem agreed_collected : agreed.Collected :=
  .add _ (.add _ .empty rfl) rfl

theorem rival_collected : rival.Collected :=
  .add _ .empty rfl

theorem numbered_collected : numbered.Collected :=
  .add _ .empty rfl

/-- Two substitutions that do not agree on a variable, and the first one the other way round. -/
theorem agreed_rival_isLUB :
    (agreed.Collected ∧ rival.Collected ∧ numbered.Collected) ∧
      IsLUB {agreed, rival} (agreed.merge rival) ∧
        IsLUB {Entry.bound (.const "a"), .bound (.const "b")} .banned ∧
          (agreed.merge rival).same (rival.merge agreed) = true ∧
            ((agreed.merge rival).merge numbered).same
              (agreed.merge (rival.merge numbered)) = true ∧
              (agreed.merge rival).same
                (merge ⟨agreed.bindings.reverse, agreed.banned, agreed.clashed⟩ rival) = true := by
  obtain ⟨⟨hleast, hentry⟩, -, ⟨hcomm, hassoc, -⟩, hrearranged⟩ :=
    Collected.isLUB_merge agreed_collected rival_collected numbered_collected
  exact ⟨⟨agreed_collected, rival_collected, numbered_collected⟩, hleast, hentry ⟨"X", 1⟩, hcomm,
    hassoc, hrearranged ⟨agreed.bindings.reverse, agreed.banned, agreed.clashed⟩ rival
      ⟨List.reverse_perm _, .refl _, rfl⟩ ⟨.refl _, .refl _, rfl⟩⟩

end Argumentation.Substitution
