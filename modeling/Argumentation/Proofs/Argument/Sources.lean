import Argumentation.Proofs.Argument.Strictness
import Argumentation.Proofs.RuleStore.Changes

namespace Argumentation

namespace RuleStore

variable {s : RuleStore}

theorem Reachable.id_pos (h : s.Reachable) : ∀ r ∈ s.rules, 0 < r.id := by
  suffices 0 < s.nextId ∧ ∀ r ∈ s.rules, 0 < r.id from this.2
  refine h.reachableBy.of_changes
    (motive := fun s ↦ 0 < s.nextId ∧ ∀ r ∈ s.rules, 0 < r.id)
    (fun _ ↦ ⟨Nat.one_pos, fun _ hr ↦ by cases hr⟩) fun s s' _ ⟨hnext, hs⟩ hchange ↦ ?_
  cases hchange with
  | aside hrules _ _ _ hnextId => exact ⟨hnextId ▸ hnext, hrules ▸ hs⟩
  | user => exact ⟨Nat.succ_pos _, forall_insert hs hnext⟩
  | hook => exact ⟨Nat.succ_pos _, forall_insert hs hnext⟩
  | @transposition source c =>
    exact ⟨Nat.succ_pos _, forall_insert (s := (s.takeName c).2) hs hnext⟩
  | detach id =>
    rw [nextId_detach, rules_detach]
    exact ⟨hnext, fun r hr ↦ hs r (List.mem_filter.mp hr).1⟩
  | @retitle r hr =>
    refine ⟨s.nextId_retitle r ▸ hnext, fun x hx ↦ ?_⟩
    rcases mem_retitle hx with ⟨hx, -⟩ | rfl
    · exact hs x hx
    · exact hs r hr

theorem Reachable.rule?_detached (h : s.Reachable) : s.rule? Rule.detached = none := by
  cases hr : s.rule? Rule.detached with
  | none => rfl
  | some r =>
    obtain ⟨hmem, hid⟩ := of_rule? hr
    exact absurd hid (Nat.ne_of_gt (h.id_pos r hmem))

end RuleStore

namespace Theory

variable {t : Theory} {a b : Argument}

inductive Sourced (t : Theory) : Rule → Prop
  | evaluated (goal : Term) : Sourced t (.evaluated goal)
  | stored {r : Rule} (base : ℕ) : t.store.rule? r.id = some r → Sourced t (r.renameApart base)

theorem Builds.sourced (h : t.Builds a) : t.Sourced a.rule := by
  obtain ⟨p, s, goal, hbuilt⟩ := h
  cases hbuilt with
  | evaluated => exact .evaluated goal
  | concluded _ _ hr => exact .stored _ (RuleStore.rule?_of_mem_candidates hr)

theorem Sourced.degree_eq_of_id (hstore : t.store.Reachable) {r r' : Rule} (hr : t.Sourced r)
    (hr' : t.Sourced r') (hid : r.id = r'.id) : r.degree = r'.degree := by
  have hnever {x : Rule} (hx : t.store.rule? x.id = some x) : x.id ≠ Rule.detached := by
    intro hdetached
    rw [hdetached, hstore.rule?_detached] at hx
    cases hx
  cases hr with
  | evaluated goal =>
    cases hr' with
    | evaluated goal' => rfl
    | stored base hx => exact (hnever hx hid.symm).elim
  | @stored x base hx =>
    cases hr' with
    | evaluated goal' => exact (hnever hx hid).elim
    | @stored y base' hy =>
      have hxy : x.id = y.id := hid
      rw [hxy, hy] at hx
      cases hx
      rfl

end Theory

end Argumentation
