import Argumentation.Proofs.Term.Binding
import Argumentation.Substitution.Basic
import Mathlib.Data.Finset.Card
import Mathlib.Logic.Relation

namespace Argumentation

namespace Bindings

theorem lookup_cons (b : Bindings) (v w : Variable) (t : Term) :
    List.lookup w ((v, t) :: b) = if w = v then some t else b.lookup w := by
  rw [List.lookup_cons]
  by_cases h : w = v
  · simp [h]
  · rw [beq_eq_false_iff_ne.mpr h, if_neg h]

theorem lookup_without (b : Bindings) (v w : Variable) :
    (b.without v).lookup w = if w = v then none else b.lookup w := by
  induction b with
  | nil => simp [without]
  | cons e b ih =>
    obtain ⟨x, t⟩ := e
    rw [lookup_cons]
    by_cases hx : x = v
    · subst hx
      rw [without, List.filter_cons_of_neg (by simp), ← without, ih]
      split <;> rfl
    · rw [without, List.filter_cons_of_pos (by simpa using hx), ← without, lookup_cons, ih]
      by_cases hw : w = x
      · subst hw
        rw [if_pos rfl, if_pos rfl, if_neg hx]
      · rw [if_neg hw, if_neg hw]

theorem lookup_of_lookup_without {b : Bindings} {v w : Variable} {t : Term}
    (h : (b.without v).lookup w = some t) : b.lookup w = some t := by
  rw [lookup_without] at h
  split at h
  · cases h
  · exact h

theorem mem_of_lookup {b : Bindings} {v : Variable} {t : Term} (h : b.lookup v = some t) :
    (v, t) ∈ b := by
  obtain ⟨l, r, rfl, -⟩ := List.lookup_eq_some_iff.mp h
  simp

theorem length_without_lt {b : Bindings} {v : Variable} {t : Term} (h : b.lookup v = some t) :
    (b.without v).length < b.length :=
  List.length_filter_lt_length_iff_exists.mpr ⟨(v, t), mem_of_lookup h, by simp⟩

theorem without_comm (b : Bindings) (v w : Variable) :
    (b.without v).without w = (b.without w).without v := by
  simp only [without, List.filter_filter, Bool.and_comm]

def Ranked (rank : Variable → ℕ) (b : Bindings) : Prop :=
  ∀ v t, b.lookup v = some t → ∀ w ∈ t.occurrences, rank w < rank v

variable {rank : Variable → ℕ} {b : Bindings}

theorem Ranked.without (h : Ranked rank b) (v : Variable) : Ranked rank (b.without v) :=
  fun w t ht ↦ h w t (lookup_of_lookup_without ht)

theorem follow_without (h : Ranked rank b) {v w : Variable} (hw : rank w < rank v) (n : ℕ) :
    follow n (b.without v) w = follow n b w := by
  induction n generalizing b w with
  | zero => rfl
  | succ n ih =>
    have hne : w ≠ v := by
      rintro rfl
      exact Nat.lt_irrefl _ hw
    rw [follow, follow, lookup_without, if_neg hne]
    cases ht : b.lookup w with
    | none => rfl
    | some t =>
      refine Term.bind_congr fun x hx ↦ ?_
      rw [without_comm]
      exact ih (h.without w) (Nat.lt_trans (h w t ht x hx) hw)

theorem follow_of_unbound {v : Variable} (h : b.lookup v = none) (n : ℕ) :
    follow n b v = .var v := by
  cases n with
  | zero => rfl
  | succ n => rw [follow, h]

theorem follow_of_length_le (b : Bindings) (v : Variable) {n m : ℕ} (hn : b.length ≤ n)
    (hm : b.length ≤ m) : follow n b v = follow m b v := by
  induction n generalizing b v m with
  | zero =>
    cases List.eq_nil_of_length_eq_zero (Nat.le_zero.mp hn)
    rw [follow_of_unbound rfl, follow_of_unbound rfl]
  | succ n ih =>
    cases ht : b.lookup v with
    | none => rw [follow_of_unbound ht, follow_of_unbound ht]
    | some t =>
      have hlt := length_without_lt ht
      obtain ⟨m, rfl⟩ : ∃ k, m = k + 1 := ⟨m - 1, by omega⟩
      simp only [follow, ht]
      exact Term.bind_congr fun w _ ↦ ih _ w (by omega) (by omega)

theorem follow_eq (h : Ranked rank b) {v : Variable} {t : Term} (ht : b.lookup v = some t) :
    follow b.length b v = t.bind (follow b.length b) := by
  have hlt := length_without_lt ht
  obtain ⟨n, hn⟩ : ∃ n, b.length = n + 1 := ⟨b.length - 1, by omega⟩
  rw [hn, follow, ht]
  refine Term.bind_congr fun w hw ↦ ?_
  rw [follow_of_length_le (m := n + 1) _ w (by omega) (by omega),
    follow_without h (h v t ht w hw)]

end Bindings

namespace Substitution

/-- The first variable is bound to a term that has the second one in it. -/
def Mentions (s : Substitution) (v w : Variable) : Prop :=
  ∃ t, s.get? v = some t ∧ w ∈ t.occurrences

/-- No variable comes up in its own value, however far the bindings are followed. -/
def Acyclic (s : Substitution) : Prop :=
  ∀ v, ¬Relation.TransGen s.Mentions v v

def Extends (u s : Substitution) : Prop :=
  ∀ v t, s.get? v = some t → u.get? v = some t

variable {s u w : Substitution}

theorem Extends.refl (s : Substitution) : s.Extends s :=
  fun _ _ h ↦ h

theorem Extends.trans (h : w.Extends u) (h' : u.Extends s) : w.Extends s :=
  fun v t ht ↦ h v t (h' v t ht)

theorem Extends.mono (h : u.Extends s) {v w : Variable} (hv : s.Mentions v w) : u.Mentions v w :=
  hv.imp fun t ht ↦ ⟨h v t ht.1, ht.2⟩

theorem Acyclic.of_extends (h : u.Acyclic) (hs : u.Extends s) : s.Acyclic :=
  fun v hv ↦ h v (Relation.TransGen.mono (fun _ _ ↦ hs.mono) _ _ hv)

theorem acyclic_empty : empty.Acyclic := by
  intro v hv
  obtain ⟨_, ⟨t, ht, -⟩, -⟩ := Relation.TransGen.head'_iff.mp hv
  cases ht

open scoped Classical in
noncomputable def ledTo (s : Substitution) (v : Variable) : Finset Variable :=
  (s.bindings.map Prod.fst).toFinset.filter fun w ↦ Relation.ReflTransGen s.Mentions v w

open scoped Classical in
theorem mem_ledTo {v w : Variable} : w ∈ s.ledTo v ↔
    w ∈ s.bindings.map Prod.fst ∧ Relation.ReflTransGen s.Mentions v w := by
  rw [ledTo, Finset.mem_filter, List.mem_toFinset]

theorem mem_keys {v : Variable} {t : Term} (h : s.get? v = some t) :
    v ∈ s.bindings.map Prod.fst :=
  List.mem_map.mpr ⟨(v, t), Bindings.mem_of_lookup h, rfl⟩

noncomputable def rank (s : Substitution) (v : Variable) : ℕ :=
  (s.ledTo v).card

theorem Acyclic.rank_lt (hs : s.Acyclic) {v w : Variable} {t : Term} (ht : s.get? v = some t)
    (hw : w ∈ t.occurrences) : s.rank w < s.rank v := by
  have hvw : s.Mentions v w := ⟨t, ht, hw⟩
  refine Finset.card_lt_card ((Finset.ssubset_iff_of_subset fun x hx ↦ ?_).mpr ⟨v, ?_, ?_⟩)
  · rw [mem_ledTo] at hx ⊢
    exact ⟨hx.1, .head hvw hx.2⟩
  · exact mem_ledTo.mpr ⟨mem_keys ht, .refl⟩
  · intro hv
    exact hs v (.head' hvw (mem_ledTo.mp hv).2)

theorem Acyclic.ranked (hs : s.Acyclic) : s.bindings.Ranked s.rank :=
  fun _ _ ht _ hw ↦ hs.rank_lt ht hw

theorem Acyclic.induction (h : s.Acyclic) {motive : Variable → Prop}
    (step : ∀ v, (∀ w, s.Mentions v w → motive w) → motive v) (v : Variable) : motive v := by
  refine (measure s.rank).wf.induction v fun v ih ↦ step v ?_
  rintro w ⟨t, ht, hw⟩
  exact ih w (h.rank_lt ht hw)

theorem apply_eq_bind (s : Substitution) (t : Term) : s.apply t = t.bind fun v ↦ s.apply (.var v) :=
  rfl

theorem apply_app (s : Substitution) (g : Symbol) (xs : List Term) :
    s.apply (.app g xs) = .fold g (xs.map s.apply) := by
  rw [apply, Term.bind, Term.bindAll_eq_map]
  rfl

theorem apply_of_unbound (s : Substitution) {v : Variable} (h : s.get? v = none) :
    s.apply (.var v) = .var v :=
  Bindings.follow_of_unbound h _

theorem apply_of_bound (hs : s.Acyclic) {v : Variable} {t : Term} (h : s.get? v = some t) :
    s.apply (.var v) = s.apply t :=
  Bindings.follow_eq hs.ranked h

theorem apply_apply_of_extends (hu : u.Acyclic) (h : u.Extends s) (t : Term) :
    u.apply (s.apply t) = u.apply t := by
  have hvar (v : Variable) : u.apply (s.apply (.var v)) = u.apply (.var v) := by
    induction v using (hu.of_extends h).induction with
    | step v ih =>
      cases hv : s.get? v with
      | none => rw [s.apply_of_unbound hv]
      | some t =>
        rw [apply_of_bound (hu.of_extends h) hv, apply_of_bound hu (h v t hv), s.apply_eq_bind,
          u.apply_eq_bind, Term.bind_bind, u.apply_eq_bind t]
        exact Term.bind_congr fun w hw ↦ ih w ⟨t, hv, hw⟩
  rw [s.apply_eq_bind, u.apply_eq_bind, Term.bind_bind, u.apply_eq_bind t]
  exact Term.bind_congr fun v _ ↦ hvar v

theorem apply_idem (hs : s.Acyclic) (t : Term) : s.apply (s.apply t) = s.apply t :=
  apply_apply_of_extends hs (.refl s) t

theorem mem_occurrences_apply_of_reached (hs : s.Acyclic) {v w : Variable} (hv : s.get? v = none)
    (h : Relation.ReflTransGen s.Mentions w v) : v ∈ (s.apply (.var w)).occurrences := by
  induction h using Relation.ReflTransGen.head_induction_on with
  | refl =>
    rw [s.apply_of_unbound hv]
    exact .head _
  | head hwx _ ih =>
    obtain ⟨t, ht, hx⟩ := hwx
    rw [apply_of_bound hs ht, apply_eq_bind, Term.mem_occurrences_bind]
    exact ⟨_, hx, ih⟩

theorem get?_ban (s : Substitution) (v w : Variable) :
    (s.ban v).get? w = if w = v then none else s.get? w :=
  Bindings.lookup_without s.bindings v w

theorem extends_ban (s : Substitution) (v : Variable) : s.Extends (s.ban v) := by
  intro w t h
  rw [get?_ban] at h
  split at h
  · cases h
  · exact h

theorem not_isConsistent_ban (s : Substitution) (v : Variable) :
    (s.ban v).isConsistent = false := by
  simp only [isConsistent, ban]
  split
  · rename_i h
    cases hb : s.banned with
    | nil => simp [isBanned, hb] at h
    | cons x xs => rfl
  · rfl

def bound (s : Substitution) (v : Variable) (t : Term) : Substitution :=
  { s with bindings := (v, t) :: s.bindings }

theorem get?_bound (s : Substitution) (v w : Variable) (t : Term) :
    (s.bound v t).get? w = if w = v then some t else s.get? w := by
  rw [get?, bound, Bindings.lookup_cons]
  rfl

theorem extends_bound {v : Variable} (hv : s.get? v = none) (t : Term) :
    (s.bound v t).Extends s := by
  intro w u hw
  rw [get?_bound, if_neg, hw]
  rintro rfl
  rw [hv] at hw
  cases hw

theorem add_cases (s : Substitution) (v : Variable) (t : Term) :
    (s.add v t = s ∧ (s.isBanned v = true ∨ t.same (.var v) = true ∨
      ∃ u, s.get? v = some u ∧ u.same t = true)) ∨
    (s.add v t = s.bound v t ∧ s.get? v = none) ∨ s.add v t = s.ban v := by
  unfold add
  split
  · exact .inl ⟨rfl, .inl ‹_›⟩
  split
  · exact .inl ⟨rfl, .inr (.inl ‹_›)⟩
  split
  · split
    · exact .inl ⟨rfl, .inr (.inr ⟨_, ‹_›, ‹_›⟩)⟩
    · exact .inr (.inr rfl)
  · exact .inr (.inl ⟨rfl, ‹_›⟩)

/-- A new binding closes no cycle if the variable does not occur in the applied value. -/
theorem Acyclic.bound (hs : s.Acyclic) {v : Variable} {t : Term} (hv : s.get? v = none)
    (hoccurs : v ∉ (s.apply t).occurrences) : (s.bound v t).Acyclic := by
  have hstep {x y : Variable} (h : (s.bound v t).Mentions x y) :
      s.Mentions x y ∨ x = v ∧ y ∈ t.occurrences := by
    obtain ⟨u, hu, hy⟩ := h
    rw [get?_bound] at hu
    split at hu
    · cases hu
      exact .inr ⟨‹_›, hy⟩
    · exact .inl ⟨u, hu, hy⟩
  -- Nothing in the new value leads back to the variable.
  have hback {x : Variable} (hx : x ∈ t.occurrences) : ¬Relation.ReflTransGen s.Mentions x v := by
    intro h
    apply hoccurs
    rw [apply_eq_bind, Term.mem_occurrences_bind]
    exact ⟨x, hx, mem_occurrences_apply_of_reached hs hv h⟩
  have hpath {x y : Variable} (h : Relation.TransGen (s.bound v t).Mentions x y) :
      Relation.TransGen s.Mentions x y ∨ Relation.ReflTransGen s.Mentions x v ∧
        ∃ z ∈ t.occurrences, Relation.ReflTransGen s.Mentions z y := by
    induction h with
    | single h =>
      rcases hstep h with h | ⟨rfl, hy⟩
      · exact .inl (.single h)
      · exact .inr ⟨.refl, _, hy, .refl⟩
    | tail _ h ih =>
      rcases hstep h with h | ⟨rfl, hy⟩
      · rcases ih with ih | ⟨hx, z, hz, hzy⟩
        · exact .inl (ih.tail h)
        · exact .inr ⟨hx, z, hz, hzy.tail h⟩
      · rcases ih with ih | ⟨hx, z, hz, hzy⟩
        · exact .inr ⟨ih.to_reflTransGen, _, hy, .refl⟩
        · exact absurd hzy (hback hz)
  intro x hx
  rcases hpath hx with h | ⟨hxv, z, hz, hzx⟩
  · exact hs x h
  · exact hback hz (hzx.trans hxv)

end Substitution

end Argumentation
