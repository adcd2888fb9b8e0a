import Mathlib.Data.Finset.Lattice.Fold
import Mathlib.Order.Lattice.Nat
import Argumentation.Proofs.Substitution.Soundness

namespace Argumentation

namespace Term

theorem length_occurrences_le (t : Term) : t.occurrences.length ≤ t.size := by
  have hall (xs : List Term) (ih : ∀ x ∈ xs, x.occurrences.length ≤ x.size) :
      (occurrencesAll xs).length ≤ sizeAll xs := by
    induction xs with
    | nil => simp [occurrencesAll]
    | cons x xs ihxs =>
      have hx := ih x (.head _)
      have hxs := ihxs fun y hy ↦ ih y (.tail _ hy)
      rw [occurrencesAll, sizeAll, List.length_append]
      omega
  induction t using Term.induction with
  | var v => simp [occurrences, size]
  | num n => simp [occurrences]
  | app g xs ih =>
    have := hall xs ih
    rw [occurrences, size]
    omega

/-- A term no larger than a bound that only has some variables in it. -/
def Fits (vs : Finset Variable) (m : ℕ) (t : Term) : Prop :=
  t.size ≤ m ∧ ∀ v ∈ t.occurrences, v ∈ vs

theorem Fits.argument {vs : Finset Variable} {m : ℕ} {g : Symbol} {xs : List Term}
    (h : (app g xs).Fits vs m) {x : Term} (hx : x ∈ xs) : x.Fits vs m := by
  obtain ⟨hsize, hvars⟩ := h
  have hle := size_le_sizeAll hx
  rw [size] at hsize
  exact ⟨by omega, fun v hv ↦ hvars v (mem_occurrencesAll.mpr ⟨x, hx, hv⟩)⟩

end Term

namespace Bindings

theorem mem_size {b : Bindings} {v : Variable} {t : Term} (h : (v, t) ∈ b) : t.size ≤ b.size := by
  induction b with
  | nil => cases h
  | cons e b ih =>
    rw [size, List.foldr_cons, ← size]
    rcases List.mem_cons.mp h with rfl | h
    · exact Nat.le_add_right _ _
    · have := ih h
      omega

def valueVars (b : Bindings) : List Variable :=
  b.flatMap (·.2.occurrences)

theorem length_valueVars_le (b : Bindings) : b.valueVars.length ≤ b.size := by
  induction b with
  | nil => simp [valueVars]
  | cons e b ih =>
    have he := e.2.length_occurrences_le
    rw [valueVars, List.flatMap_cons, List.length_append, ← valueVars, size, List.foldr_cons,
      ← size]
    omega

end Bindings

namespace Substitution

variable {s u : Substitution} {vs : Finset Variable} {m n : ℕ}

theorem rank_le_length (s : Substitution) (v : Variable) : s.rank v ≤ s.bindings.length := by
  have hsub : s.ledTo v ⊆ (s.bindings.map Prod.fst).toFinset :=
    fun w hw ↦ List.mem_toFinset.mpr (mem_ledTo.mp hw).1
  have hkeys := List.toFinset_card_le (s.bindings.map Prod.fst)
  rw [List.length_map] at hkeys
  exact (Finset.card_le_card hsub).trans hkeys

theorem get?_of_rank_zero {v : Variable} (h : s.rank v = 0) : s.get? v = none := by
  cases ht : s.get? v with
  | none => rfl
  | some t =>
    have hv : v ∈ s.ledTo v := mem_ledTo.mpr ⟨mem_keys ht, .refl⟩
    rw [Finset.card_eq_zero.mp h] at hv
    cases hv

/-- Values are lighter than the variables that they belong to, and arguments lighter than what they
are arguments of. -/
noncomputable def weight (s : Substitution) (m : ℕ) (t : Term) : ℕ :=
  (t.occurrences.toFinset.sup fun v ↦ s.rank v + 1) * (m + 1) + t.size

theorem Acyclic.weight_value_lt (hs : s.Acyclic) {v : Variable} {t : Term}
    (ht : s.get? v = some t) (hm : t.size ≤ m) : s.weight m t < s.weight m (.var v) := by
  have hsup : (t.occurrences.toFinset.sup fun w ↦ s.rank w + 1) ≤ s.rank v := by
    refine Finset.sup_le fun w hw ↦ hs.rank_lt ht ?_
    exact List.mem_toFinset.mp hw
  have hmul := Nat.mul_le_mul_right (m + 1) hsup
  have hvar : s.weight m (.var v) = (s.rank v + 1) * (m + 1) + 1 := by
    simp [weight, Term.occurrences, Term.size]
  rw [hvar, weight, Nat.succ_mul]
  omega

theorem weight_argument_lt (s : Substitution) (m : ℕ) {g : Symbol} {xs : List Term} {x : Term}
    (hx : x ∈ xs) : s.weight m x < s.weight m (.app g xs) := by
  have hsup : (x.occurrences.toFinset.sup fun v ↦ s.rank v + 1) ≤
      (Term.app g xs).occurrences.toFinset.sup fun v ↦ s.rank v + 1 := by
    refine Finset.sup_mono fun v hv ↦ ?_
    rw [List.mem_toFinset] at hv ⊢
    exact Term.mem_occurrencesAll.mpr ⟨x, hx, hv⟩
  have hmul := Nat.mul_le_mul_right (m + 1) hsup
  have hsize : x.size < (Term.app g xs).size := Nat.lt_succ_of_le (Term.size_le_sizeAll hx)
  rw [weight, weight]
  omega

theorem walkWithin_ends (hs : s.Acyclic) {v : Variable} (hn : s.rank v ≤ n) {w : Variable}
    (hw : s.walkWithin n (.var v) = .var w) : s.get? w = none := by
  induction n generalizing v with
  | zero =>
    cases hw
    exact get?_of_rank_zero (Nat.le_zero.mp hn)
  | succ n ih =>
    rw [walkWithin] at hw
    cases ht : s.get? v with
    | none =>
      rw [ht] at hw
      cases hw
      exact ht
    | some t =>
      rw [ht] at hw
      cases t with
      | var x =>
        have hlt := hs.rank_lt ht (w := x) (.head _)
        exact ih (by omega) hw
      | num k => cases n <;> cases hw
      | app g xs => cases n <;> cases hw

theorem Acyclic.get?_of_walk (hs : s.Acyclic) {t : Term} {w : Variable}
    (hw : s.walk t = .var w) : s.get? w = none := by
  cases t with
  | var v => exact walkWithin_ends hs (Nat.le_succ_of_le (s.rank_le_length v)) hw
  | num k => cases hw
  | app g xs => cases hw

theorem walkWithin_succ {t : Term} (h : ∀ w, s.walkWithin n t = .var w → s.get? w = none) :
    s.walkWithin (n + 1) t = s.walkWithin n t := by
  induction n generalizing t with
  | zero =>
    cases t with
    | var v => simp only [walkWithin, h v rfl]
    | num k => rfl
    | app g xs => rfl
  | succ n ih =>
    cases t with
    | var v =>
      rw [walkWithin] at h ⊢
      conv => rhs; rw [walkWithin]
      cases ht : s.get? v with
      | none => rfl
      | some t =>
        rw [ht] at h
        exact ih h
    | num k => rfl
    | app g xs => rfl

theorem walk_of_unbound {v : Variable} (hv : s.get? v = none) : s.walk (.var v) = .var v := by
  rw [walk, walkWithin, hv]

theorem Acyclic.walk_of_bound (hs : s.Acyclic) {v : Variable} {t : Term} (ht : s.get? v = some t) :
    s.walk (.var v) = s.walk t := by
  rw [walk, walkWithin, ht, walk]
  refine (walkWithin_succ fun w hw ↦ ?_).symm
  cases t with
  | var x =>
    have hlt := hs.rank_lt ht (w := x) (.head _)
    have hle := s.rank_le_length v
    exact walkWithin_ends hs (by omega) hw
  | num k => cases hn : s.bindings.length <;> rw [hn] at hw <;> cases hw
  | app g xs => cases hn : s.bindings.length <;> rw [hn] at hw <;> cases hw

theorem walk_walk_of_extends (hu : u.Acyclic) (h : u.Extends s) (t : Term) :
    u.walk (s.walk t) = u.walk t :=
  walk_induction (motive := fun w ↦ u.walk w = u.walk t) rfl fun v w hv ih ↦
    (hu.walk_of_bound (h v w hv)).symm.trans ih

def unbound (s : Substitution) (vs : Finset Variable) : Finset Variable :=
  vs.filter fun v ↦ s.get? v = none

structure Roomy (vs : Finset Variable) (m : ℕ) (s : Substitution) : Prop where
  acyclic : s.Acyclic
  fits : ∀ v t, s.get? v = some t → t.Fits vs m

theorem Roomy.walk (hs : s.Roomy vs m) {t : Term} (ht : t.Fits vs m) :
    (s.walk t).Fits vs m ∧ s.weight m (s.walk t) ≤ s.weight m t := by
  refine walk_induction (motive := fun w ↦ w.Fits vs m ∧ s.weight m w ≤ s.weight m t)
    ⟨ht, Nat.le_refl _⟩ fun v w hv ⟨_, hle⟩ ↦ ?_
  have hw := hs.fits v w hv
  exact ⟨hw, (hs.acyclic.weight_value_lt hv hw.1).le.trans hle⟩

theorem Roomy.rank_le (hs : s.Roomy vs m) {v : Variable} (hv : v ∈ vs) : s.rank v ≤ vs.card := by
  refine Finset.card_le_card fun w hw ↦ ?_
  have hreached := (mem_ledTo.mp hw).2
  induction hreached with
  | refl => exact hv
  | tail hvx hxw _ =>
    obtain ⟨t, ht, hmem⟩ := hxw
    exact (hs.fits _ t ht).2 _ hmem

theorem Roomy.weight_lt (hs : s.Roomy vs m) {t : Term} (ht : t.Fits vs m) :
    s.weight m t < (vs.card + 2) * (m + 1) := by
  have hsup : (t.occurrences.toFinset.sup fun v ↦ s.rank v + 1) ≤ vs.card + 1 := by
    refine Finset.sup_le fun v hv ↦ Nat.succ_le_succ (hs.rank_le (ht.2 v ?_))
    exact List.mem_toFinset.mp hv
  have hmul := Nat.mul_le_mul_right (m + 1) hsup
  have hsize := ht.1
  have hsplit : (vs.card + 2) * (m + 1) = (vs.card + 1) * (m + 1) + (m + 1) := Nat.succ_mul _ _
  rw [weight]
  omega

/-- What a step of unification leaves behind: a clash or a ban, the same bindings, or more variables
bound than before. -/
def Advances (vs : Finset Variable) (m : ℕ) (s u : Substitution) : Prop :=
  u.isConsistent = true →
    u.Roomy vs m ∧ (u = s ∨ (u.unbound vs).card < (s.unbound vs).card)

theorem Roomy.refl (hs : s.Roomy vs m) : Advances vs m s s :=
  fun _ ↦ ⟨hs, .inl rfl⟩

theorem not_isConsistent_clash (s : Substitution) : s.clash.isConsistent = false := by
  simp [clash, isConsistent]

theorem Advances.clash (s u : Substitution) : Advances vs m s u.clash := by
  intro h
  rw [not_isConsistent_clash] at h
  cases h

theorem Roomy.bindVariable (hs : s.Roomy vs m) {v : Variable} {t : Term}
    (hunbound : s.get? v = none) (hv : v ∈ vs) (ht : t.Fits vs m) :
    Advances vs m s (s.bindVariable v t) := by
  intro hconsistent
  rcases s.bindVariable_cases v t with ⟨heq, -⟩ | ⟨heq, -, hoccurs⟩ | heq
  · rw [heq]
    exact ⟨hs, .inl rfl⟩
  · rw [heq]
    refine ⟨⟨hs.acyclic.bound hunbound hoccurs, fun w x hw ↦ ?_⟩, .inr (Finset.card_lt_card ?_)⟩
    · rw [get?_bound] at hw
      split at hw
      · cases hw
        exact ht
      · exact hs.fits w x hw
    · refine (Finset.ssubset_iff_of_subset fun w hw ↦ ?_).mpr ⟨v, ?_, ?_⟩
      · obtain ⟨hmem, hnone⟩ := Finset.mem_filter.mp hw
        rw [get?_bound] at hnone
        split at hnone
        · cases hnone
        · exact Finset.mem_filter.mpr ⟨hmem, hnone⟩
      · exact Finset.mem_filter.mpr ⟨hv, hunbound⟩
      · intro hmem
        have hnone := (Finset.mem_filter.mp hmem).2
        rw [get?_bound, if_pos rfl] at hnone
        cases hnone
  · rw [heq, not_isConsistent_ban] at hconsistent
    cases hconsistent

def unifyStep (f : Term → Term → Substitution → Option Substitution) (l r : Term)
    (s : Substitution) : Option Substitution :=
  if !s.isConsistent then some s
  else match s.walk l, s.walk r with
    | .var v, .var w => some (if v = w then s else s.bindVariable v (.var w))
    | .var v, t => some (s.bindVariable v t)
    | t, .var v => some (s.bindVariable v t)
    | .num a, .num b => some (if a.same b then s else s.clash)
    | .app g xs, .app h ys =>
      if g = h ∧ xs.length = ys.length then (xs.zip ys).foldlM (fun u p ↦ f p.1 p.2 u) s
      else some s.clash
    | _, _ => some s.clash

/-- Unification as far as a depth allows: there is no answer if it would go deeper. -/
def unifyUntil : (n : ℕ) → Term → Term → Substitution → Option Substitution
  | 0, _, _, _ => none
  | n + 1, l, r, s => unifyStep (unifyUntil n) l r s

section
variable {f g : Term → Term → Substitution → Option Substitution}

theorem foldlM_mono (h : ∀ {l r s u}, f l r s = some u → g l r s = some u)
    {ps : List (Term × Term)} (hf : ps.foldlM (fun u p ↦ f p.1 p.2 u) s = some u) :
    ps.foldlM (fun u p ↦ g p.1 p.2 u) s = some u := by
  induction ps generalizing s with
  | nil => exact hf
  | cons p ps ih =>
    rw [List.foldlM_cons] at hf ⊢
    obtain ⟨w, hw, hrest⟩ := Option.bind_eq_some_iff.mp hf
    exact Option.bind_eq_some_iff.mpr ⟨w, h hw, ih hrest⟩

theorem unifyStep_mono (h : ∀ {l r s u}, f l r s = some u → g l r s = some u) {l r : Term}
    (hf : unifyStep f l r s = some u) : unifyStep g l r s = some u := by
  rw [unifyStep] at hf ⊢
  split
  · rwa [if_pos ‹_›] at hf
  rw [if_neg ‹_›] at hf
  generalize s.walk l = a at hf ⊢
  generalize s.walk r = b at hf ⊢
  cases a with
  | var v => cases b <;> exact hf
  | num j => cases b <;> exact hf
  | app a xs =>
    cases b with
    | var w => exact hf
    | num k => exact hf
    | app b ys =>
      simp only at hf ⊢
      split
      · rw [if_pos ‹_›] at hf
        exact foldlM_mono (f := f) (g := g) h hf
      · rwa [if_neg ‹_›] at hf

end

theorem unifyUntil_mono {l r : Term} (h : unifyUntil n l r s = some u) (hnm : n ≤ m) :
    unifyUntil m l r s = some u := by
  induction n generalizing l r s u m with
  | zero => cases h
  | succ n ih =>
    obtain ⟨m, rfl⟩ := Nat.exists_eq_add_of_le' hnm
    exact unifyStep_mono (fun hf ↦ ih hf (Nat.le_add_left n m)) h

theorem unifyStep_unifyWithin (l r : Term) (s : Substitution) :
    unifyStep (fun x y u ↦ some (unifyWithin n x y u)) l r s =
      some (unifyWithin (n + 1) l r s) := by
  rw [unifyStep, unifyWithin]
  split
  · rfl
  generalize s.walk l = a
  generalize s.walk r = b
  cases a with
  | var v => cases b <;> rfl
  | num j => cases b <;> rfl
  | app a xs =>
    cases b with
    | var w => rfl
    | num k => rfl
    | app b ys =>
      simp only
      split
      · exact List.foldlM_pure
      · rfl

theorem unifyWithin_of_until {l r : Term} (h : unifyUntil n l r s = some u) :
    unifyWithin n l r s = u := by
  induction n generalizing l r s u with
  | zero => cases h
  | succ n ih =>
    have hstep := unifyStep_mono (g := fun x y u ↦ some (unifyWithin n x y u))
      (fun hf ↦ congrArg some (ih hf)) h
    rw [unifyStep_unifyWithin] at hstep
    exact Option.some.inj hstep

theorem unifyUntil_inconsistent (hs : s.isConsistent = false) (hn : 0 < n) (l r : Term) :
    unifyUntil n l r s = some s := by
  obtain ⟨n, rfl⟩ := Nat.exists_eq_succ_of_ne_zero (Nat.ne_of_gt hn)
  rw [unifyUntil, unifyStep, if_pos (by simp [hs])]

/-- Pairs are unified one after the other, each of them deep enough, whatever has been bound by the
pairs before it. -/
theorem foldlM_unifyUntil_ends {ps : List (Term × Term)} (hn : 0 < n)
    (hpair : ∀ p ∈ ps, ∀ u : Substitution, Advances vs m s u → u.isConsistent = true →
      ∃ w, unifyUntil n p.1 p.2 u = some w ∧ Advances vs m u w)
    (hu : Advances vs m s u) : ∃ w,
      ps.foldlM (fun u p ↦ unifyUntil n p.1 p.2 u) u = some w ∧ Advances vs m s w := by
  induction ps generalizing u with
  | nil => exact ⟨u, rfl, hu⟩
  | cons p ps ih =>
    have hrest {u : Substitution} := ih (u := u) fun q hq ↦ hpair q (.tail _ hq)
    rw [List.foldlM_cons]
    by_cases hconsistent : u.isConsistent = true
    · obtain ⟨w, hw, hadvance⟩ := hpair p (.head _) u hu hconsistent
      obtain ⟨z, hz, hsz⟩ := hrest (u := w) fun hc ↦ by
        obtain ⟨hroomy, hsame⟩ := hadvance hc
        refine ⟨hroomy, ?_⟩
        rcases hsame with rfl | hlt
        · exact (hu hconsistent).2
        · rcases (hu hconsistent).2 with rfl | hlt'
          · exact .inr hlt
          · exact .inr (hlt.trans hlt')
      exact ⟨z, Option.bind_eq_some_iff.mpr ⟨w, hw, hz⟩, hsz⟩
    · rw [Bool.not_eq_true] at hconsistent
      obtain ⟨z, hz, hsz⟩ := hrest hu
      exact ⟨z, Option.bind_eq_some_iff.mpr
        ⟨u, unifyUntil_inconsistent hconsistent hn _ _, hz⟩, hsz⟩

theorem Roomy.unifyUntil (hs : s.Roomy vs m) {l r : Term} (hl : l.Fits vs m) (hr : r.Fits vs m)
    (hn : (vs.card + 2) * (m + 1) * (s.unbound vs).card + s.weight m l < n) :
    ∃ u, unifyUntil n l r s = some u ∧ Advances vs m s u := by
  induction n generalizing l r s with
  | zero => omega
  | succ n ih =>
    rw [Substitution.unifyUntil, unifyStep]
    split
    · exact ⟨s, rfl, hs.refl⟩
    obtain ⟨hwl, hweight⟩ := hs.walk hl
    obtain ⟨hwr, -⟩ := hs.walk hr
    split
    · rename_i v w hv hw
      refine ⟨_, rfl, ?_⟩
      split
      · exact hs.refl
      · exact hs.bindVariable (hs.acyclic.get?_of_walk hv) ((hv ▸ hwl).2 v (.head _)) (hw ▸ hwr)
    · rename_i v hv _
      exact ⟨_, rfl, hs.bindVariable (hs.acyclic.get?_of_walk hv) ((hv ▸ hwl).2 v (.head _)) hwr⟩
    · rename_i v hv _
      exact ⟨_, rfl, hs.bindVariable (hs.acyclic.get?_of_walk hv) ((hv ▸ hwr).2 v (.head _)) hwl⟩
    · refine ⟨_, rfl, ?_⟩
      split
      · exact hs.refl
      · exact .clash s s
    · rename_i f xs g ys hf hg
      split
      · rw [hf] at hwl hweight
        rw [hg] at hwr
        refine foldlM_unifyUntil_ends ?_ (fun p hp u hu hconsistent ↦ ?_) hs.refl
        · have : 0 < (Term.app f xs).size := Term.size_pos _
          rw [weight] at hweight
          omega
        obtain ⟨hroomy, hsame⟩ := hu hconsistent
        have hx := hwl.argument (List.of_mem_zip hp).1
        have hy := hwr.argument (List.of_mem_zip hp).2
        refine ih hroomy hx hy ?_
        rcases hsame with rfl | hlt
        · -- The same bindings: the argument is lighter.
          have hargument := u.weight_argument_lt m (g := f) (List.of_mem_zip hp).1
          omega
        · -- More bindings: there is room for the heaviest argument.
          have hbound := hroomy.weight_lt hx
          have hmul := Nat.mul_le_mul_left ((vs.card + 2) * (m + 1)) (Nat.succ_le_of_lt hlt)
          rw [Nat.mul_succ] at hmul
          omega
      · exact ⟨_, rfl, .clash s s⟩
    · exact ⟨_, rfl, .clash s s⟩

def reachable (s : Substitution) (l r : Term) : Finset Variable :=
  (l.occurrences ++ r.occurrences ++ s.bindings.valueVars).toFinset

theorem Acyclic.roomy (hs : s.Acyclic) (l r : Term) :
    s.Roomy (s.reachable l r) (l.size + r.size + s.bindings.size) := by
  refine ⟨hs, fun v t ht ↦ ⟨?_, fun w hw ↦ ?_⟩⟩
  · have := Bindings.mem_size (Bindings.mem_of_lookup ht)
    omega
  · have hmem : w ∈ s.bindings.valueVars :=
      List.mem_flatMap.mpr ⟨(v, t), Bindings.mem_of_lookup ht, hw⟩
    simp [reachable, hmem]

/-- Unification under an acyclic substitution ends within the depth that it is given, or within any
greater one. -/
theorem Acyclic.unifyUntil_eq (hs : s.Acyclic) {l r : Term} (hn : unifyDepth l r s ≤ n) :
    unifyUntil n l r s = some (s.unify l r) := by
  have hroomy := hs.roomy l r
  have hcard : (s.reachable l r).card ≤ l.size + r.size + s.bindings.size := by
    have hle := List.toFinset_card_le (l.occurrences ++ r.occurrences ++ s.bindings.valueVars)
    have hl := l.length_occurrences_le
    have hr := r.length_occurrences_le
    have hb := s.bindings.length_valueVars_le
    rw [List.length_append, List.length_append] at hle
    rw [reachable]
    omega
  have hfits {t : Term} (ht : t = l ∨ t = r) :
      t.Fits (s.reachable l r) (l.size + r.size + s.bindings.size) := by
    rcases ht with rfl | rfl
    · exact ⟨by omega, fun v hv ↦ by simp [reachable, hv]⟩
    · exact ⟨by omega, fun v hv ↦ by simp [reachable, hv]⟩
  generalize hm : l.size + r.size + s.bindings.size = m at hroomy hcard hfits
  have hunbound := (Finset.card_filter_le (s.reachable l r) fun v ↦ s.get? v = none).trans hcard
  have hweight := hroomy.weight_lt (hfits (.inl rfl))
  have hbound : ((s.reachable l r).card + 2) * (m + 1) * ((s.unbound (s.reachable l r)).card) +
      s.weight m l < unifyDepth l r s := by
    have hdepth : unifyDepth l r s = (m + 2) * (m + 2) * (m + 2) := by
      rw [unifyDepth, hm]
    have hfactor : ((s.reachable l r).card + 2) * (m + 1) ≤ (m + 2) * (m + 2) :=
      Nat.mul_le_mul (Nat.add_le_add_right hcard 2) (Nat.le_succ _)
    have hproduct : ((s.reachable l r).card + 2) * (m + 1) *
        ((s.unbound (s.reachable l r)).card + 1) ≤ (m + 2) * (m + 2) * (m + 2) :=
      Nat.mul_le_mul hfactor (Nat.succ_le_succ (hunbound.trans (Nat.le_succ m)))
    rw [Nat.mul_succ] at hproduct
    omega
  obtain ⟨u, hu, -⟩ := hroomy.unifyUntil (hfits (.inl rfl)) (hfits (.inr rfl)) hbound
  rw [Substitution.unify, unifyWithin_of_until hu]
  exact unifyUntil_mono hu hn

end Substitution

end Argumentation
