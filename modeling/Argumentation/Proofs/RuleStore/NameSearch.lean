import Argumentation.Proofs.RuleStore.FreshNames
import Argumentation.Proofs.Substitution.Symmetry

namespace Argumentation

/-- Some variables in the order in which they first occur in a list, each of them once. -/
structure FirstOccurrences (vs occurrences : List Variable) : Prop where
  mem_iff : ∀ v, v ∈ vs ↔ v ∈ occurrences
  ordered : vs.Pairwise fun v w ↦ occurrences.idxOf v < occurrences.idxOf w

/-- Leaving out other variables changes nothing about which of two comes first. -/
theorem idxOf_lt_of_filter {l : List Variable} {p : Variable → Bool} {v w : Variable}
    (hv : p v = true) (hw : p w = true) (h : (l.filter p).idxOf v < (l.filter p).idxOf w) :
    l.idxOf v < l.idxOf w := by
  induction l with
  | nil => exact h
  | cons a l ih =>
    by_cases ha : p a = true
    · rw [List.filter_cons_of_pos ha] at h
      simp only [List.idxOf_cons] at h ⊢
      cases hav : a == v <;> cases haw : a == w
      · rw [hav, haw] at h
        exact Nat.succ_lt_succ (ih (Nat.lt_of_succ_lt_succ h))
      · rw [haw] at h
        exact absurd h (Nat.not_lt_zero _)
      · exact Nat.succ_pos _
      · rw [hav, haw] at h
        exact absurd h (Nat.lt_irrefl _)
    · rw [List.filter_cons_of_neg ha] at h
      have hne {x : Variable} (hx : p x = true) : a ≠ x := fun heq ↦ ha (heq ▸ hx)
      rw [List.idxOf_cons_ne l (hne hv), List.idxOf_cons_ne l (hne hw)]
      exact Nat.succ_lt_succ (ih h)

theorem firstOccurrences_eraseDups (l : List Variable) : FirstOccurrences l.eraseDups l := by
  refine ⟨fun v ↦ List.mem_eraseDups, ?_⟩
  induction hn : l.length using Nat.strongRecOn generalizing l with
  | ind n ih =>
    cases l with
    | nil => exact .nil
    | cons a l =>
      rw [List.eraseDups_cons, List.pairwise_cons]
      have hrest := ih _ (by
        rw [← hn]
        exact Nat.lt_succ_of_le (List.length_filter_le _ l)) (l.filter fun b ↦ !b == a) rfl
      have hne {v : Variable} (hv : v ∈ (l.filter fun b ↦ !b == a).eraseDups) : a ≠ v := by
        rw [List.mem_eraseDups, List.mem_filter] at hv
        rintro rfl
        simp at hv
      refine ⟨fun v hv ↦ ?_, hrest.imp_of_mem fun {v w} hv hw hlt ↦ ?_⟩
      · rw [List.idxOf_cons_self, List.idxOf_cons_ne l (hne hv)]
        exact Nat.succ_pos _
      · rw [List.idxOf_cons_ne l (hne hv), List.idxOf_cons_ne l (hne hw)]
        refine Nat.succ_lt_succ (idxOf_lt_of_filter ?_ ?_ hlt)
        · simpa using (hne hv).symm
        · simpa using (hne hw).symm

namespace RuleStore

variable {s : RuleStore} {r : Rule}

/-- The search from a number on, and the numbers that it tries: one after the other, up to the first
one whose name is free. -/
inductive Tries (s : RuleStore) (r : Rule) : ℕ → List ℕ → Prop
  | free {n : ℕ} : s.isRuleName (autoName n r) = false → Tries s r n [n]
  | taken {n : ℕ} {ns : List ℕ} :
      s.isRuleName (autoName n r) = true → Tries s r (n + 1) ns → Tries s r n (n :: ns)

theorem tries_range' {n k : ℕ} (htaken : ∀ i < k, s.isRuleName (autoName (n + i) r) = true)
    (hfree : s.isRuleName (autoName (n + k) r) = false) : s.Tries r n (List.range' n (k + 1)) := by
  induction k generalizing n with
  | zero => exact .free hfree
  | succ k ih =>
    rw [List.range'_succ]
    refine .taken (htaken 0 (Nat.succ_pos k)) (ih (fun i hi ↦ ?_) ?_)
    · rw [Nat.add_right_comm, Nat.add_assoc]
      exact htaken (i + 1) (Nat.succ_lt_succ hi)
    · rw [Nat.add_right_comm, Nat.add_assoc]
      exact hfree

end RuleStore

/-- A rule that is in want of an automatic name, and the store that is asked for it. -/
structure NameSearch where
  store : RuleStore
  rule : Rule

namespace NameSearch

open RuleStore

def name (c : NameSearch) : Term :=
  (c.store.takeName c.rule).1

def numbers (c : NameSearch) : List ℕ :=
  List.range' c.store.nextName (c.store.skippedNames c.rule + 1)

/-- What a search comes to. -/
structure Succeeds (c : NameSearch) : Prop where
  tries : c.store.Tries c.rule c.store.nextName c.numbers
  bounded : c.numbers.length ≤ c.store.rules.countP (·.name.isSome) + 1
  last : c.numbers.getLast?.map (autoName · c.rule) = some c.name
  /-- The name unifies with no rule's name, whichever of them comes first. -/
  free : ∀ x ∈ c.store.rules, ∀ n, x.name = some n →
    n.unifies c.name = false ∧ c.name.unifies n = false
  arguments : ∃ vs : List Variable, c.name.args = vs.map .var ∧
    FirstOccurrences vs (c.rule.consequent.occurrences ++ Term.occurrencesAll c.rule.antecedent)

variable {c : NameSearch}

theorem succeeds_of_free
    (hliteral : ∀ x ∈ c.store.rules, ∀ n, x.name = some n → n.isLiteral = true)
    (hfree : ∀ x ∈ c.store.rules, ∀ n, x.name = some n → n.unifies c.name = false) :
    c.Succeeds where
  tries := tries_range' (skippedNames_spec hliteral c.rule).1 (skippedNames_spec hliteral c.rule).2
  bounded := by
    rw [numbers, List.length_range']
    have hle := length_taken_le hliteral (r := c.rule) (List.nodup_range' (s := c.store.nextName)
      (n := c.store.skippedNames c.rule)) fun n hn ↦ by
        obtain ⟨i, hi, rfl⟩ := List.mem_range'.mp hn
        rw [Nat.one_mul]
        exact (skippedNames_spec hliteral c.rule).1 i hi
    rw [List.length_range'] at hle
    exact Nat.succ_le_succ hle
  last := by
    rw [numbers, List.range'_1_concat, List.getLast?_append, List.getLast?_singleton]
    rfl
  free x hx n hn := ⟨hfree x hx n hn, by rw [Term.unifies_comm, hfree x hx n hn]⟩
  arguments := ⟨c.rule.vars, rfl, firstOccurrences_eraseDups _⟩

end NameSearch

namespace RuleStore

variable {s : RuleStore} {r : Rule}

theorem Listed.search_succeeds (h : s.Listed) (r : Rule) : (NameSearch.mk s r).Succeeds :=
  NameSearch.succeeds_of_free h.literal fun _ hx _ hn ↦ h.unifies_takeName r hx hn

theorem eq_of_unifies_autoName {j k : ℕ} (h : (autoName j r).unifies (autoName k r) = true) :
    j = k := by
  have hsame := Term.predicate?_of_unifies (predicate?_autoName j r) (predicate?_autoName k r) h
  rw [Predicate.mk.injEq] at hsame
  exact Nat.repr_inj.mp ((String.append_right_inj "r").mp hsame.1)

/-- A rule that gives its automatic name away does not get the same name again, since the rule that
the name is given away to bears one that unifies with it. -/
theorem Listed.renaming_succeeds (h : s.Listed) {x : Rule} (hr : r ∈ s.rules) (hx : x ∈ s.rules)
    (hne : x.id ≠ r.id) {k : ℕ} (hname : r.name = some (autoName k r)) {m : Term}
    (hm : x.name = some m) (hunifies : (autoName k r).unifies m = true) :
    (NameSearch.mk (s.unindexName r) r).Succeeds := by
  refine NameSearch.succeeds_of_free ?_ fun y hy n hn ↦ ?_
  · rw [rules_unindexName]
    exact h.literal
  rw [rules_unindexName] at hy
  by_cases hid : y.id = r.id
  · rw [h.eq_of_id hy hr hid, hname] at hn
    cases hn
    have hfree : m.unifies (s.newName r) = false := h.unifies_newName hr hx hne hm
    rw [← Bool.not_eq_true]
    intro hagain
    have hsame : autoName k r = s.newName r := by rw [eq_of_unifies_autoName hagain]; rfl
    rw [← hsame, Term.unifies_comm, hunifies] at hfree
    cases hfree
  · exact h.unifies_newName hr hy hid hn

end RuleStore

end Argumentation
