import Argumentation.Proofs.Substitution.Bans
import Argumentation.Proofs.Substitution.Frame
import Argumentation.Proofs.Substitution.Resolution

namespace Argumentation.Substitution

variable {kind : Term → Prop} {composable : Substitution → Substitution → Prop}
  {s u : Substitution} {v : Variable} {t : Term}

def SelfFree (s : Substitution) : Prop :=
  ∀ v, s.entry v ≠ .bound (.var v)

/-- No value of the first substitution is under the second one the variable that it belongs to. -/
def Unfolds (s u : Substitution) : Prop :=
  ∀ v t, s.get? v = some t → u.apply t ≠ .var v

theorem SelfFree.ban (hs : s.SelfFree) (v : Variable) : (s.ban v).SelfFree := by
  intro x hx
  rw [entry_ban] at hx
  split at hx
  · cases hx
  · exact hs x hx

theorem SelfFree.add (hs : s.SelfFree) (v : Variable) (t : Term) : (s.add v t).SelfFree := by
  intro x hx
  rw [entry_add] at hx
  split at hx
  · rename_i hxv
    subst hxv
    rcases Entry.bind_eq_bound hx with hx | ⟨rfl, hself⟩
    · exact hs x hx
    · simp [Term.same] at hself
  · exact hs x hx

theorem SelfFree.merge (hs : s.SelfFree) (hu : u.SelfFree) (hwell : u.WellFormed) :
    (s.merge u).SelfFree := by
  intro v hv
  rw [entry_merge hwell] at hv
  exact (Entry.merge_eq_bound hv).elim (hs v) (hu v)

theorem Unfolds.selfFree_under (h : s.Unfolds u) : (s.under u).SelfFree := by
  intro v hv
  have hvalue := get?_of_entry hv
  rw [get?_under, Option.map_eq_some_iff] at hvalue
  obtain ⟨t, ht, hself⟩ := hvalue
  exact h v t ht hself

theorem SelfFree.unifyWithin (hs : s.SelfFree) (n : ℕ) (l r : Term) :
    (Substitution.unifyWithin n l r s).SelfFree :=
  unifyWithin_induction n l r hs (fun _ hs ↦ hs) (fun _ v hs ↦ hs.ban v) fun _ v t hs ↦ hs.add v t

theorem Made.selfFree (hcomposable : ∀ s u, composable s u → s.Unfolds u)
    (h : s.Made kind composable) : s.SelfFree := by
  induction h with
  | empty => exact fun v hv ↦ by cases hv
  | add v _ _ ih => exact ih.add v _
  | merge _ hu ihs ihu => exact ihs.merge ihu hu.wellFormed
  | compose _ hu hsu _ ihu => exact (hcomposable _ _ hsu).selfFree_under.merge ihu hu.wellFormed
  | unify n _ _ _ ih => exact ih.unifyWithin n _ _

theorem bindVariable_const (hc : s.isConsistent = true) (hv : s.get? v = none) (f : String) :
    s.bindVariable v (.const f) = s.bound v (.const f) := by
  have hoccurs : (s.apply (.const f)).mentions v = false := rfl
  have hself : (Term.const f).same (.var v) = false := rfl
  rw [bindVariable, hoccurs, add, isBanned_of_isConsistent hc, hself, hv]
  rfl

theorem unify_const (hc : s.isConsistent = true) (hv : s.get? v = none) (f : String) :
    s.unify (.var v) (.const f) = s.bound v (.const f) ∧
      s.unify (.const f) (.var v) = s.bound v (.const f) := by
  have hstep (n : ℕ) : unifyWithin (n + 1) (.var v) (.const f) s = s.bound v (.const f) ∧
      unifyWithin (n + 1) (.const f) (.var v) s = s.bound v (.const f) := by
    have hwalk : s.walk (.const f) = .const f := rfl
    simp only [Substitution.unifyWithin, hc, walk_of_unbound hv, hwalk, bindVariable_const hc hv f]
    simp
  exact ⟨(hstep _).1, (hstep _).2⟩

/-- A variable that stands for itself is unbound, unless it is on a cycle. -/
theorem get?_of_apply_self (happly : s.apply (.var v) = .var v)
    (hcycle : ¬Relation.TransGen s.Mentions v v) : s.get? v = none := by
  have hleft := (resolves_iff (s := s) (t := .var v).mpr happly.symm).left fun w hw ↦ by cases hw
  exact (hleft v (.head _)).resolve_right hcycle

/-- If no composition makes a variable its own value, no variable is ever bound to itself. However
the bindings came about, if they are consistent, a variable that they leave as it is, and do not
lead back to, can be unified with any constant. -/
theorem unbound_unifies (s : Substitution) :
    (s.Made (fun _ ↦ True) Unfolds → ∀ v, s.get? v ≠ some (.var v)) ∧
      (s.isConsistent = true → ∀ v, s.apply (.var v) = .var v →
        ¬Relation.TransGen s.Mentions v v → ∀ f,
          ((s.unify (.var v) (.const f)).isConsistent = true ∧
            (s.unify (.var v) (.const f)).get? v = some (.const f)) ∧
          (s.unify (.const f) (.var v)).isConsistent = true ∧
            (s.unify (.const f) (.var v)).get? v = some (.const f)) := by
  refine ⟨fun h v hv ↦ ?_, fun hc v happly hcycle f ↦ ?_⟩
  · exact h.selfFree (fun _ _ hsu ↦ hsu) v (h.wellFormed.entry_eq_bound.mpr hv)
  · obtain ⟨hleft, hright⟩ := unify_const hc (get?_of_apply_self happly hcycle) f
    have hbound : (s.bound v (.const f)).get? v = some (.const f) := by
      rw [get?_bound, if_pos rfl]
    rw [hleft, hright]
    exact ⟨⟨hc, hbound⟩, hc, hbound⟩

def relayed : Substitution :=
  (empty.add ⟨"X", 1⟩ (.var ⟨"Y", 2⟩)).compose (empty.add ⟨"Y", 2⟩ (.var ⟨"Z", 3⟩))

theorem relayed_made : relayed.Made (fun _ ↦ True) Unfolds := by
  refine .compose (.add _ .empty trivial) (.add _ .empty trivial) fun v t hv ht ↦ ?_
  have hbound : (empty.bound ⟨"X", 1⟩ (.var ⟨"Y", 2⟩)).get? v = some t := hv
  rw [get?_bound] at hbound
  split at hbound
  · rename_i hX
    cases hbound
    have hvalue : (empty.add ⟨"Y", 2⟩ (.var ⟨"Z", 3⟩)).apply (.var ⟨"Y", 2⟩) = .var ⟨"Z", 3⟩ := rfl
    rw [hX, hvalue] at ht
    simp at ht
  · cases hbound

theorem relayed_unifies :
    relayed.Made (fun _ ↦ True) Unfolds ∧ relayed.get? ⟨"X", 1⟩ ≠ some (.var ⟨"X", 1⟩) ∧
      relayed.isConsistent = true ∧ relayed.apply (.var ⟨"Z", 3⟩) = .var ⟨"Z", 3⟩ ∧
        (relayed.unify (.var ⟨"Z", 3⟩) (.const "a")).isConsistent = true ∧
          (relayed.unify (.var ⟨"Z", 3⟩) (.const "a")).get? ⟨"Z", 3⟩ = some (.const "a") := by
  obtain ⟨hself, hunifies⟩ := unbound_unifies relayed
  have hconsistent : relayed.isConsistent = true := by decide
  have hcycle : ¬Relation.TransGen relayed.Mentions ⟨"Z", 3⟩ ⟨"Z", 3⟩ := by
    intro h
    obtain ⟨_, ⟨t, ht, -⟩, -⟩ := Relation.TransGen.head'_iff.mp h
    have hunbound : relayed.get? ⟨"Z", 3⟩ = none := rfl
    rw [hunbound] at ht
    cases ht
  obtain ⟨⟨hc, hget⟩, -⟩ := hunifies hconsistent ⟨"Z", 3⟩ rfl hcycle "a"
  exact ⟨relayed_made, hself relayed_made _, hconsistent, rfl, hc, hget⟩

/-- The value of one variable is the other one, and the composition turns it back. -/
def crossed : Substitution :=
  (empty.add ⟨"X", 1⟩ (.var ⟨"Y", 2⟩)).compose (empty.add ⟨"Y", 2⟩ (.var ⟨"X", 1⟩))

def paired : Substitution :=
  (empty.add ⟨"X", 1⟩ (.var ⟨"Y", 2⟩)).add ⟨"Y", 2⟩ (.var ⟨"X", 1⟩)

/-- A composition can bind a variable to itself; such a variable, or one on a longer cycle, stays as
it is and cannot be unified with a constant. -/
theorem crossed_paired_not_unified :
    (crossed.Reachable ∧ crossed.isConsistent = true ∧
      crossed.get? ⟨"X", 1⟩ = some (.var ⟨"X", 1⟩) ∧
        crossed.apply (.var ⟨"X", 1⟩) = .var ⟨"X", 1⟩ ∧
          (crossed.unify (.var ⟨"X", 1⟩) (.const "a")).isConsistent = false) ∧
    paired.Reachable ∧ paired.isConsistent = true ∧
      paired.apply (.var ⟨"X", 1⟩) = .var ⟨"X", 1⟩ ∧
        (paired.unify (.var ⟨"X", 1⟩) (.const "a")).isConsistent = false := by
  have hcrossed : crossed.Reachable :=
    .compose (.add _ .empty trivial) (.add _ .empty trivial) trivial
  have hpaired : paired.Reachable := .add _ (.add _ .empty trivial) trivial
  exact ⟨⟨hcrossed, by decide, rfl, rfl, by decide +kernel⟩, hpaired, by decide, rfl,
    by decide +kernel⟩

end Argumentation.Substitution
