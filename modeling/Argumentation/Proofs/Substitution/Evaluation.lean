import Argumentation.Proofs.Substitution.Soundness
import Argumentation.Substitution.Evaluation

namespace Argumentation

open Substitution

variable {s s' : Substitution}

theorem Evaluation.ofBool_succeeded {holds : Bool} (h : ofBool holds s = .succeeded s') :
    holds = true ∧ s' = s := by
  cases holds with
  | true => exact ⟨rfl, (Evaluation.succeeded.inj h).symm⟩
  | false => cases h

/-- A built-in goal succeeds without new bindings, or with the value of the right side for an
unbound left side. -/
theorem Operator.evaluate_succeeded {op : Operator} {args : List Term}
    (h : op.evaluate args s = .succeeded s') :
    s' = s ∨ ∃ v r value, args.map s.apply = [.var v, r] ∧ r.evaluate = some value ∧
      s' = s.add v (.num value) ∧ s'.isConsistent = true := by
  unfold evaluate at h
  split at h
  · split at h
    · exact .inl (Evaluation.succeeded.inj h).symm
    · cases h
  · exact .inl (Evaluation.ofBool_succeeded h).2
  · exact .inl (Evaluation.ofBool_succeeded h).2
  · rename_i l r hargs
    unfold Evaluation.ofIs at h
    split at h
    · cases h
    · rename_i value hvalue
      split at h
      · rename_i v
        obtain ⟨hconsistent, rfl⟩ := Evaluation.ofBool_succeeded h
        exact .inr ⟨v, r, value, hargs, hvalue, rfl, hconsistent⟩
      · exact .inl (Evaluation.ofBool_succeeded h).2
      · cases h
  · exact .inl (Evaluation.ofBool_succeeded h).2
  · cases h
  · unfold Evaluation.ofComparison at h
    split at h
    · exact .inl (Evaluation.ofBool_succeeded h).2
    · cases h
  · cases h

namespace Substitution

theorem add_num_cases {v : Variable} {n : Number} (h : (s.add v (.num n)).isConsistent = true) :
    s.add v (.num n) = s ∨ (s.add v (.num n) = s.bound v (.num n) ∧ s.get? v = none) := by
  rcases s.add_cases v (.num n) with ⟨heq, -⟩ | heq | heq
  · exact .inl heq
  · exact .inr heq
  · rw [heq, not_isConsistent_ban] at h
    cases h

theorem Acyclic.evaluate (hs : s.Acyclic) {op : Operator} {args : List Term}
    (h : op.evaluate args s = .succeeded s') : s'.Acyclic := by
  rcases Operator.evaluate_succeeded h with rfl | ⟨v, r, value, -, -, rfl, hconsistent⟩
  · exact hs
  · rcases add_num_cases hconsistent with heq | ⟨heq, hv⟩
    · rwa [heq]
    · rw [heq]
      exact hs.bound hv (by simp [apply, Term.bind, Term.occurrences])

theorem evaluate_extends {op : Operator} {args : List Term}
    (h : op.evaluate args s = .succeeded s') : s'.Extends s := by
  rcases Operator.evaluate_succeeded h with rfl | ⟨v, r, value, -, -, rfl, hconsistent⟩
  · exact .refl s'
  · rcases add_num_cases hconsistent with heq | ⟨heq, hv⟩
    · rw [heq]
      exact .refl s
    · rw [heq]
      exact extends_bound hv _

theorem evaluate_isConsistent (hs : s.isConsistent = true) {op : Operator} {args : List Term}
    (h : op.evaluate args s = .succeeded s') : s'.isConsistent = true := by
  rcases Operator.evaluate_succeeded h with rfl | ⟨-, -, -, -, -, -, hconsistent⟩
  · exact hs
  · exact hconsistent

end Substitution

end Argumentation
