import Argumentation.Proofs.RuleStore.Changes

namespace Argumentation

theorem Rule.isStrict_of_mem_contrapositives {r c : Rule} (h : c ∈ r.contrapositives) :
    c.isStrict = true := by
  obtain ⟨-, -, i, e, head, negated, -, -, -, rfl⟩ := exists_of_mem_contrapositives h
  exact decide_eq_true rfl

namespace RuleStore

variable {s : RuleStore}

theorem Reachable.isStrict_of_isTransposition (h : s.Reachable) :
    ∀ T ∈ s.rules, T.origin.isTransposition = true → T.isStrict = true := by
  refine h.reachableBy.forall_rules ?_ ?_ ?_ ?_
  · intro given r id _ _ _ htransposition
    cases htransposition
  · intro r name id _ _ htransposition
    cases htransposition
  · intro source c n id hc _
    have hstrict : c.isStrict = true := Rule.isStrict_of_mem_contrapositives hc
    exact hstrict
  · intro r n hr _
    exact hr

/-- While a store is transposing, each contrapositive of a stored rule of a user has a variant among
the stored rules, or is there itself if a NaN in it equals nothing; and that rule is strict, unless
it is one that a user gave. -/
theorem Reachable.contrapositives_stored (h : s.Reachable) (hon : s.transposing = true) :
    ∀ S ∈ s.rules, S.origin = .user → ∀ c ∈ S.contrapositives, ∃ R ∈ s.rules,
      (R.isVariant c = true ∨ R.consequent = c.consequent ∧ R.antecedent = c.antecedent) ∧
      (R.isStrict = true ∨ R.origin = .user) := by
  intro S hS huser c hc
  have hmem := bare_mem_substance hS (by rw [huser]; rfl)
  obtain ⟨R, hR, hcovers⟩ := h.transposed.complete hon _ hmem huser c hc
  obtain ⟨T, hT, hhook, rfl⟩ := mem_substance.mp hR
  refine ⟨T, hT, hcovers.imp_right And.right, ?_⟩
  cases horigin : T.origin with
  | user => exact .inr rfl
  | hook source =>
    rw [horigin] at hhook
    cases hhook
  | transposition source =>
    exact .inl (h.isStrict_of_isTransposition T hT (by rw [horigin]; rfl))

def weakened : RuleStore :=
  (Engine.addAll ⟨.default, .empty true⟩ [.plain (.const "p") [.const "q"] .one,
    .plain (.const "~q") [.const "~p"]
      ⟨0x3FE0000000000000, Nat.le_of_ble_eq_true rfl, Nat.le_of_ble_eq_true rfl⟩]).2.store

theorem weakened_stored :
    weakened.transposing = true ∧
    weakened.rules.map Rule.text = ["p <- q.", "r1.", "~q <~0.5 ~p.", "r3 <~0.5."] ∧
    ∀ S ∈ weakened.rules, S.origin = .user → ∀ c ∈ S.contrapositives, ∃ R ∈ weakened.rules,
      (R.isVariant c = true ∨ R.consequent = c.consequent ∧ R.antecedent = c.antecedent) ∧
      (R.isStrict = true ∨ R.origin = .user) := by
  have hreachable : weakened.Reachable := Engine.addAll_reachable (.empty true) _
  have hon : weakened.transposing = true := by decide +kernel
  exact ⟨hon, by decide +kernel, hreachable.contrapositives_stored hon⟩

/-- Its strict rule has a contrapositive that no strict rule is a variant of. -/
theorem weakened_not_closed :
    weakened.Reachable ∧ weakened.transposing = true ∧
    ∃ S ∈ weakened.strictUserRules, ∃ c ∈ S.contrapositives,
      ∀ R ∈ weakened.rules, R.isStrict = true → R.isVariant c = false :=
  ⟨Engine.addAll_reachable (.empty true) _, by decide +kernel, by decide +kernel⟩

end RuleStore

end Argumentation
