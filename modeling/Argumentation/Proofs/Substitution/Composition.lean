import Argumentation.Proofs.Substitution.Entries
import Argumentation.Proofs.Substitution.Frame

namespace Argumentation.Substitution

variable {s u a b c : Substitution} {v w : Variable} {t : Term}

/-- Consistent bindings without cycles, one for each bound variable. -/
structure Settled (s : Substitution) : Prop where
  boundOnce : (s.bindings.map Prod.fst).Nodup
  consistent : s.isConsistent = true
  acyclic : s.Acyclic

/-- What the first substitution binds is neither bound by the second one nor in one of its values.
-/
structure Precedes (s u : Substitution) : Prop where
  disjoint : ∀ v, s.isBound v = true → u.isBound v = false
  untouched : ∀ v t, u.get? v = some t → ∀ w ∈ t.occurrences, s.isBound w = false

theorem isBound_of_get? (hv : s.get? v = some t) : s.isBound v = true := by
  rw [isBound, hv, Option.isSome_some]

theorem isBound_eq_false : s.isBound v = false ↔ s.get? v = none :=
  Option.isSome_eq_false_iff.trans Option.isNone_iff_eq_none

theorem Settled.wellFormed (hs : s.Settled) : s.WellFormed where
  boundOnce := hs.boundOnce
  bannedOnce := by
    have hbanned := hs.consistent
    rw [isConsistent, Bool.and_eq_true, List.isEmpty_iff] at hbanned
    rw [hbanned.1]
    exact .nil
  apart v hv := by
    rw [isBanned_of_isConsistent hs.consistent] at hv
    cases hv

theorem Settled.entry (hs : s.Settled) (v : Variable) :
    s.entry v = match s.get? v with
      | some t => .bound t
      | none => .unbound :=
  entry_of_not_banned (isBanned_of_isConsistent hs.consistent v)

theorem Acyclic.not_same_self (hs : s.Acyclic) (hv : s.get? v = some t) :
    ¬t.same (.var v) = true := by
  intro h
  rw [Term.same_var_iff.mp h] at hv
  exact hs v (.single ⟨_, hv, .head _⟩)

theorem settled_empty : empty.Settled :=
  ⟨.nil, rfl, acyclic_empty⟩

theorem Settled.bound (hs : s.Settled) (hv : s.get? v = none)
    (hoccurs : v ∉ (s.apply t).occurrences) : (s.bound v t).Settled where
  boundOnce := List.nodup_cons.mpr ⟨Bindings.lookup_eq_none_iff.mp hv, hs.boundOnce⟩
  consistent := hs.consistent
  acyclic := hs.acyclic.bound hv hoccurs

theorem Precedes.of_mem (hdisjoint : ∀ e ∈ s.bindings, u.isBound e.1 = false)
    (huntouched : ∀ e ∈ u.bindings, ∀ w ∈ e.2.occurrences, s.isBound w = false) :
    s.Precedes u where
  disjoint v hv := by
    obtain ⟨t, ht⟩ := Option.isSome_iff_exists.mp hv
    exact hdisjoint (v, t) (Bindings.mem_of_lookup ht)
  untouched v t hv := huntouched (v, t) (Bindings.mem_of_lookup hv)

/-- The bindings of the first substitution are rewritten, and those of the second one are new. -/
theorem entry_compose_of_precedes (hs : s.Settled) (hu : u.Settled) (h : s.Precedes u)
    (v : Variable) :
    (s.compose u).entry v = match s.get? v with
      | some t => .bound (u.apply t)
      | none => u.entry v := by
  rw [entry_compose hu.wellFormed, hs.entry, hu.entry]
  cases hv : s.get? v with
  | some t =>
    rw [isBound_eq_false.mp (h.disjoint v (isBound_of_get? hv))]
    rfl
  | none =>
    cases hv' : u.get? v with
    | some t =>
      dsimp only
      rw [Entry.map, Entry.merge, Entry.bind, if_neg (hu.acyclic.not_same_self hv')]
    | none => rfl

theorem get?_compose_of_bound (hs : s.Settled) (hu : u.Settled) (h : s.Precedes u)
    (hv : s.get? v = some t) : (s.compose u).get? v = some (u.apply t) := by
  have hentry := entry_compose_of_precedes hs hu h v
  rw [hv] at hentry
  exact get?_of_entry hentry

theorem get?_compose_of_unbound (hs : s.Settled) (hu : u.Settled) (h : s.Precedes u)
    (hv : s.get? v = none) : (s.compose u).get? v = u.get? v := by
  ext t
  rw [← (hs.wellFormed.compose u).entry_eq_bound, entry_compose_of_precedes hs hu h, hv]
  exact hu.wellFormed.entry_eq_bound

theorem compose_extends (hs : s.Settled) (hu : u.Settled) (h : s.Precedes u) :
    (s.compose u).Extends u := by
  intro v t hv
  cases hv' : s.get? v with
  | none => exact (get?_compose_of_unbound hs hu h hv').trans hv
  | some r =>
    have hunbound := isBound_eq_false.mp (h.disjoint v (isBound_of_get? hv'))
    rw [hv] at hunbound
    cases hunbound

theorem isConsistent_compose (hs : s.Settled) (hu : u.Settled) (h : s.Precedes u) :
    (s.compose u).isConsistent = true := by
  have hsc := isConsistent_iff.mp hs.consistent
  have huc := isConsistent_iff.mp hu.consistent
  refine isConsistent_iff.mpr ⟨fun v hv ↦ ?_, ?_⟩
  · rw [entry_compose_of_precedes hs hu h] at hv
    split at hv
    · cases hv
    · exact huc.1 v hv
  · have hclashed : (s.compose u).clashed = (s.clashed || u.clashed) := rfl
    rw [hclashed, hsc.2, huc.2, Bool.or_false]

theorem acyclic_of_rank (rank : Variable → ℕ) (h : ∀ v w, s.Mentions v w → rank w < rank v) :
    s.Acyclic := by
  intro v hv
  have hlt {v w : Variable} (hvw : Relation.TransGen s.Mentions v w) : rank w < rank v := by
    induction hvw with
    | single hstep => exact h _ _ hstep
    | tail _ hstep ih => exact (h _ _ hstep).trans ih
  exact Nat.lt_irrefl _ (hlt hv)

/-- Values of the second substitution do not lead to what the first one binds. -/
theorem Precedes.isBound_of_mem_apply (hu : u.Settled) (h : s.Precedes u)
    (ht : ∀ w ∈ t.occurrences, s.isBound w = false) :
    ∀ w ∈ (u.apply t).occurrences, s.isBound w = false := by
  have hvar (v : Variable) :
      s.isBound v = false → ∀ w ∈ (u.apply (.var v)).occurrences, s.isBound w = false := by
    induction v using hu.acyclic.induction with
    | step v ih =>
      intro hv w hw
      cases hv' : u.get? v with
      | none =>
        rw [u.apply_of_unbound hv'] at hw
        rwa [List.mem_singleton.mp hw]
      | some r =>
        rw [apply_of_bound hu.acyclic hv', apply_eq_bind, Term.mem_occurrences_bind] at hw
        obtain ⟨x, hx, hw⟩ := hw
        exact ih x ⟨r, hv', hx⟩ (h.untouched v r hv' x hx) w hw
  intro w hw
  rw [apply_eq_bind, Term.mem_occurrences_bind] at hw
  obtain ⟨v, hv, hw⟩ := hw
  exact hvar v (ht v hv) w hw

/-- A variable that the first substitution binds is in a rewritten value only if it was in the value
before. -/
theorem Precedes.mem_of_mem_apply (hu : u.Settled) (h : s.Precedes u)
    (hw : w ∈ (u.apply t).occurrences) (hbound : s.isBound w = true) : w ∈ t.occurrences := by
  rw [apply_eq_bind, Term.mem_occurrences_bind] at hw
  obtain ⟨x, hx, hw⟩ := hw
  cases hx' : s.isBound x with
  | false =>
    have hfree := h.isBound_of_mem_apply hu (t := .var x)
      (fun y hy ↦ by rwa [List.mem_singleton.mp hy]) w hw
    rw [hbound] at hfree
    cases hfree
  | true =>
    rw [u.apply_of_unbound (isBound_eq_false.mp (h.disjoint x hx'))] at hw
    rwa [List.mem_singleton.mp hw]

theorem acyclic_compose (hs : s.Settled) (hu : u.Settled) (h : s.Precedes u) :
    (s.compose u).Acyclic := by
  -- What the first substitution binds ranks above all that the second one binds.
  refine acyclic_of_rank
    (fun v ↦ if s.isBound v then u.bindings.length + 1 + s.rank v else u.rank v) fun v w hvw ↦ ?_
  obtain ⟨t, ht, hw⟩ := hvw
  have hlength := u.rank_le_length w
  cases hv : s.get? v with
  | some r =>
    rw [get?_compose_of_bound hs hu h hv, Option.some_inj] at ht
    subst ht
    rw [isBound_of_get? hv, if_pos rfl]
    split
    · have hlt := hs.acyclic.rank_lt hv (h.mem_of_mem_apply hu hw ‹_›)
      omega
    · omega
  | none =>
    rw [get?_compose_of_unbound hs hu h hv] at ht
    have hlt := hu.acyclic.rank_lt ht hw
    rw [isBound_eq_false.mpr hv, h.untouched v t ht w hw]
    exact hlt

theorem Settled.compose (hs : s.Settled) (hu : u.Settled) (h : s.Precedes u) :
    (s.compose u).Settled :=
  ⟨(hs.wellFormed.compose u).boundOnce, isConsistent_compose hs hu h, acyclic_compose hs hu h⟩

/-- What the first substitution does not come to is up to the second one. -/
theorem apply_compose_of_free (hs : s.Settled) (hu : u.Settled) (h : s.Precedes u) (v : Variable) :
    s.isBound v = false → (s.compose u).apply (.var v) = u.apply (.var v) := by
  induction v using hu.acyclic.induction with
  | step v ih =>
    intro hv
    have hget := get?_compose_of_unbound hs hu h (isBound_eq_false.mp hv)
    cases hv' : u.get? v with
    | none => rw [apply_of_unbound _ (hget.trans hv'), u.apply_of_unbound hv']
    | some t =>
      rw [apply_of_bound (acyclic_compose hs hu h) (hget.trans hv'), apply_of_bound hu.acyclic hv',
        apply_eq_bind, u.apply_eq_bind]
      exact Term.bind_congr fun w hw ↦ ih w ⟨t, hv', hw⟩ (h.untouched v t hv' w hw)

theorem apply_compose (hs : s.Settled) (hu : u.Settled) (h : s.Precedes u) (t : Term) :
    (s.compose u).apply t = u.apply (s.apply t) := by
  have hcompose := acyclic_compose hs hu h
  -- The composition extends the second substitution, so it makes no difference to it that the
  -- values of the first one have been rewritten.
  have hvar (v : Variable) : (s.compose u).apply (.var v) = u.apply (s.apply (.var v)) := by
    induction v using hs.acyclic.induction with
    | step v ih =>
      cases hv : s.get? v with
      | none =>
        rw [s.apply_of_unbound hv]
        exact apply_compose_of_free hs hu h v (isBound_eq_false.mpr hv)
      | some r =>
        calc (s.compose u).apply (.var v)
          _ = (s.compose u).apply (u.apply r) :=
            apply_of_bound hcompose (get?_compose_of_bound hs hu h hv)
          _ = (s.compose u).apply r := apply_apply_of_extends hcompose (compose_extends hs hu h) r
          _ = r.bind fun w ↦ u.apply (s.apply (.var w)) := by
            rw [apply_eq_bind]
            exact Term.bind_congr fun w hw ↦ ih w ⟨r, hv, hw⟩
          _ = u.apply (s.apply r) := by
            rw [s.apply_eq_bind r, u.apply_eq_bind, Term.bind_bind]
            rfl
          _ = u.apply (s.apply (.var v)) := by rw [apply_of_bound hs.acyclic hv]
  rw [apply_eq_bind, s.apply_eq_bind, u.apply_eq_bind, Term.bind_bind]
  exact Term.bind_congr fun v _ ↦ hvar v

theorem isBound_compose (hs : s.Settled) (hu : u.Settled) (h : s.Precedes u) (v : Variable) :
    (s.compose u).isBound v = (s.isBound v || u.isBound v) := by
  cases hv : s.get? v with
  | some t =>
    rw [isBound_of_get? hv, isBound_of_get? (get?_compose_of_bound hs hu h hv), Bool.true_or]
  | none =>
    rw [isBound_eq_false.mpr hv, isBound, get?_compose_of_unbound hs hu h hv, Bool.false_or]
    rfl

theorem Precedes.compose_left (ha : a.Settled) (hb : b.Settled) (hab : a.Precedes b)
    (hac : a.Precedes c) (hbc : b.Precedes c) : (a.compose b).Precedes c where
  disjoint v hv := by
    rw [isBound_compose ha hb hab, Bool.or_eq_true] at hv
    exact hv.elim (hac.disjoint v) (hbc.disjoint v)
  untouched v t hv w hw := by
    rw [isBound_compose ha hb hab, hac.untouched v t hv w hw, hbc.untouched v t hv w hw]
    rfl

theorem Precedes.compose_right (hb : b.Settled) (hc : c.Settled) (hbc : b.Precedes c)
    (hab : a.Precedes b) (hac : a.Precedes c) : a.Precedes (b.compose c) where
  disjoint v hv := by
    rw [isBound_compose hb hc hbc, hab.disjoint v hv, hac.disjoint v hv]
    rfl
  untouched v t hv := by
    cases hv' : b.get? v with
    | some r =>
      rw [get?_compose_of_bound hb hc hbc hv', Option.some_inj] at hv
      subst hv
      exact hac.isBound_of_mem_apply hc (hab.untouched v r hv')
    | none =>
      rw [get?_compose_of_unbound hb hc hbc hv'] at hv
      exact hac.untouched v t hv

/-- A composition does what the one substitution does after the other. Three of them compose to the
same bindings, and consistently so, whichever two come first. -/
theorem compose_laws (ha : a.Settled) (hb : b.Settled) (hc : c.Settled) (hab : a.Precedes b)
    (hac : a.Precedes c) (hbc : b.Precedes c) :
    (∀ t, (a.compose b).apply t = b.apply (a.apply t)) ∧
      ((a.compose b).compose c).isConsistent = true ∧
        (a.compose (b.compose c)).isConsistent = true ∧
          ∀ v, ((a.compose b).compose c).get? v = (a.compose (b.compose c)).get? v := by
  have hab' := ha.compose hb hab
  have hbc' := hb.compose hc hbc
  have hleft := Precedes.compose_left ha hb hab hac hbc
  have hright := Precedes.compose_right hb hc hbc hab hac
  refine ⟨apply_compose ha hb hab, isConsistent_compose hab' hc hleft,
    isConsistent_compose ha hbc' hright, fun v ↦ ?_⟩
  cases hv : a.get? v with
  | some t =>
    rw [get?_compose_of_bound ha hbc' hright hv, apply_compose hb hc hbc]
    exact get?_compose_of_bound hab' hc hleft (get?_compose_of_bound ha hb hab hv)
  | none =>
    have hv' := get?_compose_of_unbound ha hb hab hv
    rw [get?_compose_of_unbound ha hbc' hright hv]
    cases ht : b.get? v with
    | some t =>
      rw [get?_compose_of_bound hb hc hbc ht]
      exact get?_compose_of_bound hab' hc hleft (hv'.trans ht)
    | none =>
      rw [get?_compose_of_unbound hb hc hbc ht]
      exact get?_compose_of_unbound hab' hc hleft (hv'.trans ht)

def openSum : Substitution :=
  (empty.bound ⟨"W", 2⟩ (.app (.op (.arith .add)) [.var ⟨"Y", 3⟩, .num (.int 1)])).bound ⟨"X", 1⟩
    (.app (.name "f") [.var ⟨"W", 2⟩])

def openProduct : Substitution :=
  empty.bound ⟨"Y", 3⟩ (.app (.op (.arith .mul)) [.var ⟨"Z", 4⟩, .num (.int 2)])

def three : Substitution :=
  empty.bound ⟨"Z", 4⟩ (.num (.int 3))

theorem openSum_openProduct_three_laws :
    (openSum.Settled ∧ openProduct.Settled ∧ three.Settled) ∧
      (openSum.Precedes openProduct ∧ openSum.Precedes three ∧ openProduct.Precedes three) ∧
      (openSum.compose openProduct).apply (.var ⟨"X", 1⟩) =
        openProduct.apply (openSum.apply (.var ⟨"X", 1⟩)) ∧
      ((openSum.compose openProduct).compose three).isConsistent = true ∧
        ((openSum.compose openProduct).compose three).get? ⟨"W", 2⟩ = some (.num (.int 7)) ∧
          (openSum.compose (openProduct.compose three)).get? ⟨"W", 2⟩ = some (.num (.int 7)) := by
  have hsum : openSum.Settled :=
    (settled_empty.bound (by decide) (by decide +kernel)).bound (by decide) (by decide +kernel)
  have hproduct : openProduct.Settled := settled_empty.bound (by decide) (by decide +kernel)
  have hthree : three.Settled := settled_empty.bound (by decide) (by decide +kernel)
  have hsp : openSum.Precedes openProduct := .of_mem (by decide) (by decide)
  have hst : openSum.Precedes three := .of_mem (by decide) (by decide)
  have hpt : openProduct.Precedes three := .of_mem (by decide) (by decide)
  obtain ⟨happly, hconsistent, -, hget⟩ := compose_laws hsum hproduct hthree hsp hst hpt
  have hvalue : ((openSum.compose openProduct).compose three).get? ⟨"W", 2⟩ =
      some (.num (.int 7)) := rfl
  exact ⟨⟨hsum, hproduct, hthree⟩, ⟨hsp, hst, hpt⟩, happly _, hconsistent, hvalue,
    (hget _).symm.trans hvalue⟩

end Argumentation.Substitution
