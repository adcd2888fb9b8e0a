import Argumentation.Proofs.Term.Binding
import Argumentation.Rule.Transposition

namespace Argumentation

theorem Term.occurrences_of_negation? {t u : Term} (h : t.negation? = some u) :
    u.occurrences = t.occurrences := by
  revert h
  fun_cases negation? t <;> intro h <;> cases h
  rfl

namespace Rule

variable {r c : Rule} {v : Variable}

theorem mem_vars : v ∈ r.vars ↔
    v ∈ r.consequent.occurrences ∨ ∃ e ∈ r.antecedent, v ∈ e.occurrences := by
  simp only [vars, List.mem_eraseDups, List.mem_append, Term.mem_occurrencesAll]

theorem mem_allVars : v ∈ r.allVars ↔ v ∈ r.consequent.occurrences ∨
    (∃ e ∈ r.antecedent, v ∈ e.occurrences) ∨ ∃ e ∈ r.name, v ∈ e.occurrences := by
  simp only [allVars, List.mem_eraseDups, List.mem_append, Term.mem_occurrencesAll, or_assoc,
    Option.mem_toList, Option.mem_def]

/-- The variables of consequent, antecedent and name, each as often as it occurs. -/
def occurrences (r : Rule) : List Variable :=
  r.consequent.occurrences ++ Term.occurrencesAll r.antecedent ++ Term.occurrencesAll r.name.toList

theorem mem_occurrences : v ∈ r.occurrences ↔ v ∈ r.allVars :=
  List.mem_eraseDups.symm

theorem occurrences_rename (f : Variable → Variable) (r : Rule) :
    (r.rename f).occurrences = r.occurrences.map f := by
  have hall (xs : List Term) :
      Term.occurrencesAll (xs.map (Term.rename f)) = (Term.occurrencesAll xs).map f := by
    rw [Term.occurrencesAll_eq_flatMap, Term.occurrencesAll_eq_flatMap, List.flatMap_map,
      List.map_flatMap]
    exact List.flatMap_congr fun x _ ↦ x.occurrences_rename f
  simp only [occurrences, rename, Term.renameAll_eq_map, Option.toList_map,
    Term.occurrences_rename, hall, List.map_append]

def Disjoint (r r' : Rule) : Prop :=
  ∀ v ∈ r.occurrences, ∀ w ∈ r'.occurrences, v.id ≠ w.id

theorem Disjoint.symm {r' : Rule} (h : r.Disjoint r') : r'.Disjoint r :=
  fun v hv w hw ↦ (h w hw v hv).symm

theorem mem_allVars_of_mem_vars (h : v ∈ r.vars) : v ∈ r.allVars :=
  mem_allVars.mpr ((mem_vars.mp h).imp_right .inl)

theorem exists_of_mem_contrapositives (h : c ∈ r.contrapositives) :
    r.isStrict = true ∧ r.isFact = false ∧ ∃ i e head negated, r.antecedent[i]? = some e ∧
      e.negation? = some head ∧ r.consequent.negation? = some negated ∧
      c = plain head (negated :: r.antecedent.eraseIdx i) .one := by
  rw [contrapositives] at h
  split at h
  · rename_i hr
    rw [Bool.and_eq_true, Bool.not_eq_true'] at hr
    obtain ⟨i, -, hi⟩ := List.mem_filterMap.mp h
    simp only [contrapositive?, Option.bind_eq_bind, Option.bind_eq_some_iff, Option.pure_def,
      Option.some.injEq] at hi
    obtain ⟨head, ⟨e, he, hhead⟩, negated, hnegated, rfl⟩ := hi
    exact ⟨hr.1, hr.2, i, e, head, negated, he, hhead, hnegated, rfl⟩
  · cases h

theorem mem_vars_of_contrapositive (hc : c ∈ r.contrapositives) (h : v ∈ c.vars) : v ∈ r.vars := by
  obtain ⟨-, -, i, e, head, negated, he, hhead, hnegated, rfl⟩ := exists_of_mem_contrapositives hc
  rw [mem_vars] at h ⊢
  rcases h with h | ⟨a, ha, h⟩
  · rw [show (plain head _ _).consequent = head from rfl, Term.occurrences_of_negation? hhead] at h
    exact .inr ⟨e, List.mem_of_getElem? he, h⟩
  · rcases List.mem_cons.mp ha with rfl | ha
    · rw [Term.occurrences_of_negation? hnegated] at h
      exact .inl h
    · exact .inr ⟨a, List.mem_of_mem_eraseIdx ha, h⟩

end Rule

end Argumentation
