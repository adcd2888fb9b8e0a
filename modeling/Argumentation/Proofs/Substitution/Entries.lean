import Mathlib.Order.Basic
import Argumentation.Proofs.RelatedLists
import Argumentation.Proofs.Substitution.Soundness

namespace Argumentation

namespace Bindings

variable {b : Bindings} {v : Variable} {t : Term}

theorem lookup_eq_none_iff : b.lookup v = none ↔ v ∉ b.map Prod.fst := by
  rw [List.lookup_eq_none_iff, List.mem_map, not_exists]
  refine forall_congr' fun e ↦ ?_
  rw [bne_iff_ne, not_and, ne_comm, ne_eq]

theorem lookup_eq_some_iff (h : (b.map Prod.fst).Nodup) : b.lookup v = some t ↔ (v, t) ∈ b := by
  constructor
  · exact mem_of_lookup
  · exact lookup_of_mem_of_nodup h

theorem lookup_map (f : Term → Term) (b : Bindings) (v : Variable) :
    List.lookup v (b.map fun (w, t) ↦ (w, f t)) = (b.lookup v).map f := by
  induction b with
  | nil => rfl
  | cons e b ih =>
    obtain ⟨w, t⟩ := e
    rw [List.map_cons, lookup_cons, lookup_cons, ih]
    split <;> rfl

end Bindings

namespace Substitution

variable {s u w : Substitution} {v x : Variable} {t r : Term}

/-- What there is on a variable. -/
inductive Entry where
  | unbound
  | bound (t : Term)
  | banned

namespace Entry

variable {e e' : Entry}

inductive Le : Entry → Entry → Prop where
  | unbound (e : Entry) : Le unbound e
  | bound (t : Term) : Le (bound t) (bound t)
  | banned (e : Entry) : Le e banned

instance : PartialOrder Entry where
  le := Le
  le_refl e := by
    cases e with
    | unbound => exact .unbound _
    | bound t => exact .bound t
    | banned => exact .banned _
  le_trans := by
    rintro _ _ _ (_ | _ | _) h
    · exact .unbound _
    · exact h
    · cases h
      exact .banned _
  le_antisymm := by
    rintro _ _ (_ | _ | _) h
    · cases h
      rfl
    · rfl
    · cases h
      rfl

theorem unbound_le (e : Entry) : unbound ≤ e :=
  Le.unbound e

theorem le_banned (e : Entry) : e ≤ banned :=
  Le.banned e

theorem banned_le_iff : banned ≤ e ↔ e = banned := by
  constructor
  · rintro (_ | _ | _)
    rfl
  · rintro rfl
    exact le_rfl

theorem bound_le_iff : bound t ≤ e ↔ e = bound t ∨ e = banned := by
  constructor
  · rintro (_ | _ | _)
    · exact .inl rfl
    · exact .inr rfl
  · rintro (rfl | rfl)
    · exact le_rfl
    · exact le_banned _

def bind (v : Variable) (t : Term) : Entry → Entry
  | unbound => if t.same (.var v) then unbound else bound t
  | bound u => if t.same (.var v) || u.same t then bound u else banned
  | banned => banned

/-- The entry of a variable after it has been given all of another entry. -/
def merge (v : Variable) (e : Entry) : Entry → Entry
  | unbound => e
  | bound t => e.bind v t
  | banned => banned

def map (f : Term → Term) : Entry → Entry
  | unbound => unbound
  | bound t => bound (f t)
  | banned => banned

theorem le_bind (v : Variable) (t : Term) (e : Entry) : e ≤ e.bind v t := by
  cases e with
  | unbound => exact unbound_le _
  | bound u =>
    rw [bind]
    split
    · exact le_rfl
    · exact le_banned _
  | banned => exact le_rfl

/-- A term in an entry was there before, or it is the new one and not the variable itself. -/
theorem bind_eq_bound (h : e.bind v t = bound r) :
    e = bound r ∨ t = r ∧ r.same (.var v) = false := by
  cases e with
  | unbound =>
    rw [bind] at h
    split at h
    · cases h
    · cases h
      exact .inr ⟨rfl, Bool.eq_false_of_not_eq_true ‹_›⟩
  | bound u =>
    rw [bind] at h
    split at h
    · exact .inl h
    · cases h
  | banned => cases h

theorem merge_eq_bound (h : e.merge v e' = bound r) : e = bound r ∨ e' = bound r := by
  cases e' with
  | unbound => exact .inl h
  | bound t => exact (bind_eq_bound h).imp_right fun ⟨ht, _⟩ ↦ congrArg _ ht
  | banned => cases h

end Entry

def entry (s : Substitution) (v : Variable) : Entry :=
  if s.isBanned v then .banned
  else match s.get? v with
    | some t => .bound t
    | none => .unbound

theorem entry_eq_banned : s.entry v = .banned ↔ s.isBanned v = true := by
  rw [entry]
  split
  · simp [*]
  · cases s.get? v <;> simp [*]

theorem entry_of_not_banned (h : s.isBanned v = false) :
    s.entry v = match s.get? v with
      | some t => .bound t
      | none => .unbound := by
  rw [entry, if_neg (by simp [h])]

theorem get?_of_entry (h : s.entry v = .bound t) : s.get? v = some t := by
  rw [entry] at h
  split at h
  · cases h
  · cases hv : s.get? v <;> rw [hv] at h <;> cases h
    rfl

theorem isConsistent_iff :
    s.isConsistent = true ↔ (∀ v, s.entry v ≠ .banned) ∧ s.clashed = false := by
  rw [isConsistent, Bool.and_eq_true, List.isEmpty_iff, Bool.not_eq_true',
    List.eq_nil_iff_forall_not_mem]
  refine and_congr_left' (forall_congr' fun v ↦ not_congr ?_)
  rw [entry_eq_banned, isBanned, List.contains_iff_mem]

theorem isBanned_ban : (s.ban v).isBanned x = (x == v || s.isBanned x) := by
  by_cases hv : s.isBanned v = true
  · rw [ban, if_pos hv, isBanned]
    by_cases hx : x = v
    · subst hx
      simpa [isBanned] using hv
    · simp [hx, isBanned]
  · rw [ban, if_neg hv, isBanned, List.contains_cons]
    rfl

theorem entry_ban : (s.ban v).entry x = if x = v then .banned else s.entry x := by
  rw [entry, isBanned_ban, get?_ban, entry]
  by_cases hx : x = v
  · simp [hx]
  · simp [hx]

theorem entry_bound (hv : s.isBanned v = false) :
    (s.bound v t).entry x = if x = v then .bound t else s.entry x := by
  have hbanned : (s.bound v t).isBanned x = s.isBanned x := rfl
  rw [entry, hbanned, get?_bound, entry]
  by_cases hx : x = v
  · simp [hx, hv]
  · simp [hx]

theorem entry_add : (s.add v t).entry x = if x = v then (s.entry v).bind v t else s.entry x := by
  have hsame (h : (s.entry v).bind v t = s.entry v) :
      s.entry x = if x = v then (s.entry v).bind v t else s.entry x := by
    split
    · rw [h, ‹x = v›]
    · rfl
  unfold add
  split
  · refine hsame ?_
    rw [entry_eq_banned.mpr ‹_›, Entry.bind]
  rename_i hbanned
  have hentry := entry_of_not_banned (Bool.eq_false_of_not_eq_true hbanned)
  split
  · refine hsame ?_
    cases hv : s.entry v <;> simp [Entry.bind, *]
  rename_i hself
  cases hv : s.get? v with
  | none =>
    simp only [hv] at hentry
    rw [hentry, Entry.bind, if_neg hself]
    exact entry_bound (Bool.eq_false_of_not_eq_true hbanned)
  | some r =>
    simp only [hv] at hentry
    dsimp only
    split
    · refine hsame ?_
      rw [hentry, Entry.bind, if_pos (by simp [*])]
    · rename_i hdiffers
      have hneither : ¬(t.same (.var v) || r.same t) = true := by simp [hself, hdiffers]
      rw [entry_ban, hentry, Entry.bind, if_neg hneither]

theorem entry_foldl_ban (vs : List Variable) (s : Substitution) :
    (vs.foldl ban s).entry x = if x ∈ vs then .banned else s.entry x := by
  induction vs generalizing s with
  | nil => rfl
  | cons v vs ih =>
    rw [List.foldl_cons, ih, entry_ban]
    by_cases hx : x = v
    · simp [hx]
    · simp [hx]

/-- If no variable is bound twice, each binding meets the entry that there was at first. -/
theorem entry_foldl_add {b : Bindings} (hb : (b.map Prod.fst).Nodup) (s : Substitution) :
    (b.foldl (fun acc (v, t) ↦ acc.add v t) s).entry x =
      match b.lookup x with
      | some t => (s.entry x).bind x t
      | none => s.entry x := by
  induction b generalizing s with
  | nil => rfl
  | cons e b ih =>
    obtain ⟨v, t⟩ := e
    rw [List.map_cons, List.nodup_cons] at hb
    rw [List.foldl_cons, ih hb.2, Bindings.lookup_cons, entry_add]
    by_cases hx : x = v
    · subst hx
      rw [Bindings.lookup_eq_none_iff.mpr hb.1]
      simp
    · simp [hx]

/-- No variable is bound twice or banned twice, and none is both bound and banned. -/
structure WellFormed (s : Substitution) : Prop where
  boundOnce : (s.bindings.map Prod.fst).Nodup
  bannedOnce : s.banned.Nodup
  apart : ∀ v, s.isBanned v = true → s.get? v = none

theorem wellFormed_empty : empty.WellFormed :=
  ⟨.nil, .nil, fun _ _ ↦ rfl⟩

theorem WellFormed.entry_eq_bound (hs : s.WellFormed) :
    s.entry v = .bound t ↔ s.get? v = some t := by
  refine ⟨get?_of_entry, fun hv ↦ ?_⟩
  rw [entry_of_not_banned, hv]
  refine Bool.eq_false_of_not_eq_true fun hbanned ↦ ?_
  rw [hs.apart v hbanned] at hv
  cases hv

theorem WellFormed.clash (hs : s.WellFormed) : s.clash.WellFormed :=
  ⟨hs.boundOnce, hs.bannedOnce, hs.apart⟩

theorem WellFormed.ban (hs : s.WellFormed) (v : Variable) : (s.ban v).WellFormed where
  boundOnce := hs.boundOnce.sublist (List.filter_sublist.map _)
  bannedOnce := by
    rw [Substitution.ban]
    split
    · exact hs.bannedOnce
    · refine List.nodup_cons.mpr ⟨fun hmem ↦ ‹¬_› ?_, hs.bannedOnce⟩
      exact List.contains_iff_mem.mpr hmem
  apart x hx := by
    rw [get?_ban]
    split
    · rfl
    · rename_i hne
      rw [isBanned_ban, beq_eq_false_iff_ne.mpr hne, Bool.false_or] at hx
      exact hs.apart x hx

theorem WellFormed.bound (hs : s.WellFormed) (hv : s.get? v = none) (hbanned : s.isBanned v = false)
    (t : Term) : (s.bound v t).WellFormed where
  boundOnce := List.nodup_cons.mpr ⟨Bindings.lookup_eq_none_iff.mp hv, hs.boundOnce⟩
  bannedOnce := hs.bannedOnce
  apart x hx := by
    have hx' : s.isBanned x = true := hx
    rw [get?_bound, if_neg]
    · exact hs.apart x hx'
    · rintro rfl
      rw [hbanned] at hx'
      cases hx'

theorem WellFormed.add (hs : s.WellFormed) (v : Variable) (t : Term) : (s.add v t).WellFormed := by
  unfold Substitution.add
  split
  · exact hs
  split
  · exact hs
  split
  · split
    · exact hs
    · exact hs.ban v
  · exact hs.bound ‹_› (Bool.eq_false_of_not_eq_true ‹_›) t

/-- What is true of a substitution stays true when it is unified under, to whatever depth, if a
clash, a ban and a binding leave it true. -/
theorem unifyWithin_induction {motive : Substitution → Prop} (n : ℕ) (l r : Term) (hs : motive s)
    (clash : ∀ s, motive s → motive s.clash) (ban : ∀ s v, motive s → motive (s.ban v))
    (add : ∀ s v t, motive s → motive (s.add v t)) : motive (unifyWithin n l r s) := by
  refine (solves_unifyWithin n l r s).induction hs clash fun s v t hs ↦ ?_
  unfold bindVariable
  split
  · exact ban s v hs
  · exact add s v t hs

theorem WellFormed.unifyWithin (hs : s.WellFormed) (n : ℕ) (l r : Term) :
    (Substitution.unifyWithin n l r s).WellFormed :=
  unifyWithin_induction n l r hs (fun _ hs ↦ hs.clash) (fun _ v hs ↦ hs.ban v)
    fun _ v t hs ↦ hs.add v t

theorem merge_induction {motive : Substitution → Prop} (u : Substitution) (hs : motive s)
    (ban : ∀ s v, motive s → motive (s.ban v)) (add : ∀ s v t, motive s → motive (s.add v t))
    (clashed : ∀ w, motive w → motive { w with clashed := s.clashed || u.clashed }) :
    motive (s.merge u) := by
  have hbanned (vs : List Variable) {s : Substitution} (hs : motive s) :
      motive (vs.foldl Substitution.ban s) := by
    induction vs generalizing s with
    | nil => exact hs
    | cons v vs ih => exact ih (ban s v hs)
  have hbound (b : Bindings) {s : Substitution} (hs : motive s) :
      motive (b.foldl (fun acc (v, t) ↦ acc.add v t) s) := by
    induction b generalizing s with
    | nil => exact hs
    | cons e b ih => exact ih (add s e.1 e.2 hs)
  exact clashed _ (hbound _ (hbanned _ hs))

theorem WellFormed.merge (hs : s.WellFormed) (u : Substitution) : (s.merge u).WellFormed :=
  merge_induction u hs (fun _ v hs ↦ hs.ban v) (fun _ v t hs ↦ hs.add v t)
    fun _ hs ↦ ⟨hs.boundOnce, hs.bannedOnce, hs.apart⟩

theorem entry_merge (hu : u.WellFormed) :
    (s.merge u).entry v = (s.entry v).merge v (u.entry v) := by
  have hfold : (s.merge u).entry v = match u.get? v with
      | some t => ((u.banned.foldl ban s).entry v).bind v t
      | none => (u.banned.foldl ban s).entry v := entry_foldl_add hu.boundOnce _
  rw [hfold, entry_foldl_ban]
  by_cases hv : u.isBanned v = true
  · rw [hu.apart v hv, entry_eq_banned.mpr hv, if_pos (List.contains_iff_mem.mp hv)]
    rfl
  · rw [entry_of_not_banned (Bool.eq_false_of_not_eq_true hv),
      if_neg (mt List.contains_iff_mem.mpr hv)]
    cases u.get? v <;> rfl

def under (s u : Substitution) : Substitution :=
  { s with bindings := s.bindings.map fun (v, t) ↦ (v, u.apply t) }

theorem compose_eq_merge (s u : Substitution) : s.compose u = (s.under u).merge u :=
  rfl

theorem get?_under (s u : Substitution) (v : Variable) :
    (s.under u).get? v = (s.get? v).map u.apply :=
  Bindings.lookup_map u.apply s.bindings v

theorem entry_under (s u : Substitution) (v : Variable) :
    (s.under u).entry v = (s.entry v).map u.apply := by
  have hbanned : (s.under u).isBanned v = s.isBanned v := rfl
  rw [entry, hbanned, get?_under, entry]
  split
  · rfl
  · cases s.get? v <;> rfl

theorem WellFormed.under (hs : s.WellFormed) (u : Substitution) : (s.under u).WellFormed where
  boundOnce := by
    have hkeys : (s.under u).bindings.map Prod.fst = s.bindings.map Prod.fst := by
      rw [Substitution.under, List.map_map]
      rfl
    rw [hkeys]
    exact hs.boundOnce
  bannedOnce := hs.bannedOnce
  apart v hv := by rw [get?_under, hs.apart v hv, Option.map_none]

theorem WellFormed.compose (hs : s.WellFormed) (u : Substitution) : (s.compose u).WellFormed :=
  (hs.under u).merge u

theorem entry_compose (hu : u.WellFormed) :
    (s.compose u).entry v = ((s.entry v).map u.apply).merge v (u.entry v) := by
  rw [compose_eq_merge, entry_merge hu, entry_under]

instance : Preorder Substitution where
  le s u := (∀ v, s.entry v ≤ u.entry v) ∧ (s.clashed = true → u.clashed = true)
  le_refl _ := ⟨fun _ ↦ le_rfl, id⟩
  le_trans _ _ _ h h' := ⟨fun v ↦ (h.1 v).trans (h'.1 v), h'.2 ∘ h.2⟩

theorem le_clash (s : Substitution) : s ≤ s.clash :=
  ⟨fun _ ↦ le_rfl, fun _ ↦ rfl⟩

theorem le_ban (s : Substitution) (v : Variable) : s ≤ s.ban v := by
  refine ⟨fun x ↦ ?_, id⟩
  rw [entry_ban]
  split
  · exact Entry.le_banned _
  · exact le_rfl

theorem clashed_add (s : Substitution) (v : Variable) (t : Term) :
    (s.add v t).clashed = s.clashed := by
  rcases s.add_cases v t with ⟨h, -⟩ | ⟨h, -⟩ | h <;> rw [h] <;> rfl

theorem le_add (s : Substitution) (v : Variable) (t : Term) : s ≤ s.add v t := by
  refine ⟨fun x ↦ ?_, fun h ↦ (s.clashed_add v t).trans h⟩
  rw [entry_add]
  split
  · rename_i hx
    rw [hx]
    exact Entry.le_bind v t _
  · exact le_rfl

theorem le_foldl_add (b : Bindings) (s : Substitution) :
    s ≤ b.foldl (fun acc (v, t) ↦ acc.add v t) s := by
  induction b generalizing s with
  | nil => exact le_rfl
  | cons e b ih => exact (s.le_add e.1 e.2).trans (ih _)

theorem le_merge (s u : Substitution) : s ≤ s.merge u := by
  refine merge_induction u le_rfl (fun w v h ↦ h.trans (w.le_ban v))
    (fun w v t h ↦ h.trans (w.le_add v t)) fun w h ↦ ⟨h.1, fun hs ↦ ?_⟩
  rw [hs, Bool.true_or]

theorem le_unifyWithin (s : Substitution) (n : ℕ) (l r : Term) :
    s ≤ Substitution.unifyWithin n l r s :=
  unifyWithin_induction n l r le_rfl (fun w h ↦ h.trans w.le_clash)
    (fun w v h ↦ h.trans (w.le_ban v)) fun w v t h ↦ h.trans (w.le_add v t)

theorem isBanned_of_le (h : s ≤ u) (hv : s.isBanned v = true) : u.isBanned v = true := by
  rw [← entry_eq_banned] at hv ⊢
  exact Entry.banned_le_iff.mp (hv ▸ h.1 v)

end Substitution

end Argumentation
