import Argumentation.Proofs.RuleStore.FreshNames

namespace Argumentation.RuleStore

variable {s s' : RuleStore} {p : Rule → Prop}

def SelfAvoiding (r : Rule) : Prop :=
  ∀ name, r.name = some name → name.unifies r.consequent = false

theorem selfAvoiding_of_add {r : Rule} {id : RuleId} (h : s.add r = .ok (id, s')) :
    SelfAvoiding r := by
  intro name hname
  obtain ⟨-, named, ids, nextName, hsettle, -⟩ := add_spec h
  rcases settleName_spec hsettle with ⟨name', hname', -, hunifies, -⟩ | ⟨hnone, -⟩
  · cases hname.symm.trans hname'
    exact hunifies
  · cases hname.symm.trans hnone

theorem Reachable.selfAvoiding (h : s.Reachable) : s.ReachableBy SelfAvoiding := by
  induction h with
  | empty transposing => exact .empty transposing
  | add _ hadd ih => exact ih.add (selfAvoiding_of_add hadd) hadd
  | remove _ hremove ih => exact ih.remove hremove
  | setTransposing on _ ih => exact ih.setTransposing on

/-- A name that came with the rule does not unify with its consequent; every other one is the
automatic name with some number. -/
theorem Reachable.selfAvoiding_or_autoName (h : s.Reachable) :
    ∀ r ∈ s.rules, SelfAvoiding r ∨ r.autoNamed = true ∧ ∃ k, r.name = some (autoName k r) := by
  refine h.selfAvoiding.forall_rules ?_ ?_ ?_ ?_
  · intro given r id hgiven hsettled _
    rcases hsettled with rfl | ⟨-, k, rfl⟩
    · exact .inl hgiven
    · exact .inr ⟨rfl, k, rfl⟩
  · intro r name id _ _
    exact .inl fun _ hname ↦ by cases hname
  · intro source c k id _
    exact .inr ⟨rfl, k, rfl⟩
  · intro r k _ _
    exact .inr ⟨rfl, k, rfl⟩

/-- An automatic name is a literal over all variables of the rule, so the consequent cannot be one
of these. -/
theorem predicate?_of_unifies_autoName {k : ℕ} {r : Rule}
    (h : (autoName k r).unifies r.consequent = true) :
    r.consequent.predicate? = some ⟨"r" ++ toString k, r.vars.length⟩ := by
  rcases Term.predicate?_or_var_of_unifies (predicate?_autoName k r) h with hp | ⟨v, hv, hfresh⟩
  · exact hp
  · have hmem : v ∈ r.vars := by
      rw [Rule.vars, List.mem_eraseDups, hv]
      exact List.mem_append_left _ (.head _)
    exact absurd (mem_occurrences_autoName.mpr hmem) hfresh

/-- If the name of a stored rule unifies with the rule's own consequent, it is an automatic one, and
the consequent has the functor and the arity of that automatic name. -/
theorem Reachable.autoName_of_unifies_consequent (h : s.Reachable) :
    ∀ r ∈ s.rules, ∀ name, r.name = some name → name.unifies r.consequent = true →
      r.autoNamed = true ∧ ∃ k, name = autoName k r ∧
        r.consequent.predicate? = some ⟨"r" ++ toString k, r.vars.length⟩ := by
  intro r hr name hname hunifies
  rcases h.selfAvoiding_or_autoName r hr with havoids | ⟨hauto, k, hk⟩
  · rw [havoids name hname] at hunifies
    cases hunifies
  · cases hname.symm.trans hk
    exact ⟨hauto, k, rfl, predicate?_of_unifies_autoName hunifies⟩

def selfNamed : RuleStore :=
  (Engine.addAll ⟨.default, .empty false⟩ [.plain (.const "r1") [.const "b"] .one]).2.store

theorem selfNamed_autoName :
    selfNamed.Reachable ∧ ∃ r ∈ selfNamed.rules, ∃ name, r.name = some name ∧
      name.unifies r.consequent = true ∧ r.autoNamed = true ∧ ∃ k, name = autoName k r ∧
        r.consequent.predicate? = some ⟨"r" ++ toString k, r.vars.length⟩ := by
  have hreachable : selfNamed.Reachable := Engine.addAll_reachable (.empty false) _
  obtain ⟨r, hr, name, hname, hunifies⟩ : ∃ r ∈ selfNamed.rules, ∃ name, r.name = some name ∧
      name.unifies r.consequent = true :=
    ⟨_, .head _, _, rfl, by decide +kernel⟩
  exact ⟨hreachable, r, hr, name, hname, hunifies,
    hreachable.autoName_of_unifies_consequent r hr name hname hunifies⟩

/-- Its hook asserts the conclusion, though nothing supports the antecedent. -/
theorem selfNamed_asserts :
    selfNamed.Reachable ∧ selfNamed.rules.map Rule.text = ["r1 <- b.", "r1."] ∧
    ∃ r ∈ selfNamed.rules, r.name.any (·.unifies r.consequent) = true :=
  ⟨Engine.addAll_reachable (.empty false) _, by decide +kernel, by decide +kernel⟩

end Argumentation.RuleStore
