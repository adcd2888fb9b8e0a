import Argumentation.RuleStore.Recursion
import Mathlib.Data.List.Permutation
import Mathlib.Data.List.Sort
import Mathlib.Data.String.Basic
import Mathlib.Logic.Relation

namespace Argumentation

namespace Predicate

variable {p q r : Predicate}

def Before (p q : Predicate) : Prop :=
  p.functor < q.functor ∨ p.functor = q.functor ∧ p.arity < q.arity

theorem precedes_iff : p.precedes q = true ↔ p.Before q ∨ p = q := by
  obtain ⟨f, m⟩ := p
  obtain ⟨g, n⟩ := q
  simp only [precedes, Before, Bool.or_eq_true, Bool.and_eq_true, decide_eq_true_iff, beq_iff_eq,
    Predicate.mk.injEq, Nat.le_iff_lt_or_eq]
  tauto

theorem Before.trans (hpq : p.Before q) (hqr : q.Before r) : p.Before r := by
  unfold Before at *
  rcases hpq with hpq | ⟨hpq, hpq'⟩ <;> rcases hqr with hqr | ⟨hqr, hqr'⟩
  · exact .inl (lt_trans hpq hqr)
  · exact .inl (hqr ▸ hpq)
  · exact .inl (hpq ▸ hqr)
  · exact .inr ⟨hpq.trans hqr, Nat.lt_trans hpq' hqr'⟩

instance : Std.Irrefl Before :=
  ⟨fun p h ↦ h.elim (lt_irrefl p.functor) fun h ↦ Nat.lt_irrefl p.arity h.2⟩

instance : Std.Antisymm Before :=
  ⟨fun p _ hpq hqp ↦ (Std.Irrefl.irrefl p (hpq.trans hqp)).elim⟩

theorem before_or_eq_or_before (p q : Predicate) : p.Before q ∨ p = q ∨ q.Before p := by
  unfold Before
  rcases lt_trichotomy p.functor q.functor with hlt | heq | hlt
  · exact .inl (.inl hlt)
  · rcases Nat.lt_trichotomy p.arity q.arity with hlt | harity | hlt
    · exact .inl (.inr ⟨heq, hlt⟩)
    · exact .inr (.inl (by cases p; cases q; simp_all))
    · exact .inr (.inr (.inr ⟨heq.symm, hlt⟩))
  · exact .inr (.inr (.inl hlt))

/-- Without repetitions, sorting leaves each predicate strictly before the next. -/
theorem pairwise_before_mergeSort {ps : List Predicate} (h : ps.Nodup) :
    (ps.mergeSort precedes).Pairwise Before := by
  have htrans (p q r : Predicate) (hpq : p.precedes q = true) (hqr : q.precedes r = true) :
      p.precedes r = true := by
    rw [precedes_iff] at *
    rcases hpq with hpq | rfl
    · rcases hqr with hqr | rfl
      · exact .inl (hpq.trans hqr)
      · exact .inl hpq
    · exact hqr
  have htotal (p q : Predicate) : (p.precedes q || q.precedes p) = true := by
    rw [Bool.or_eq_true, precedes_iff, precedes_iff]
    rcases before_or_eq_or_before p q with hpq | hpq | hqp
    · exact .inl (.inl hpq)
    · exact .inl (.inr hpq)
    · exact .inr (.inl hqp)
  have hsorted := List.pairwise_mergeSort htrans htotal ps
  have hnodup : (ps.mergeSort precedes).Nodup := (List.mergeSort_perm ps precedes).nodup_iff.mpr h
  exact (hsorted.and hnodup).imp fun ⟨hprecedes, hne⟩ ↦
    (precedes_iff.mp hprecedes).resolve_right hne

end Predicate

theorem nodup_eraseDups {α : Type} [BEq α] [LawfulBEq α] (l : List α) : l.eraseDups.Nodup := by
  induction hn : l.length using Nat.strongRecOn generalizing l with
  | ind n ih =>
    cases l with
    | nil => exact .nil
    | cons a l =>
      rw [List.eraseDups_cons, List.nodup_cons, List.mem_eraseDups]
      refine ⟨by simp, ih _ ?_ _ rfl⟩
      rw [← hn]
      exact Nat.lt_succ_of_le (List.length_filter_le _ l)

namespace Recursion

variable {rules rules' : List Rule} {es es' : List (Predicate × Predicate)} {p q : Predicate}
  {seen : List Predicate} {n : ℕ}

def Supports (rules : List Rule) (p q : Predicate) : Prop :=
  ∃ r ∈ rules, r.origin.isHook = false ∧ (∃ e ∈ r.antecedent, e.predicate? = some p) ∧
    r.consequent.predicate? = some q

/-- The second predicate depends on the first one, through one rule or several. -/
def LeadsTo (rules : List Rule) : Predicate → Predicate → Prop :=
  Relation.TransGen (Supports rules)

theorem mem_edges : (p, q) ∈ edges rules ↔ Supports rules p q := by
  simp only [edges, List.mem_flatMap, List.mem_filter, Bool.not_eq_true', Supports, and_assoc]
  refine exists_congr fun r ↦ and_congr_right fun _ ↦ and_congr_right fun _ ↦ ?_
  unfold Rule.dependences
  cases r.consequent.predicate? <;> simp

theorem mem_successors : q ∈ successors es seen ↔ ∃ p ∈ seen, (p, q) ∈ es := by
  simp only [successors, List.mem_eraseDups, List.mem_map, List.mem_filter, List.contains_iff_mem]
  constructor
  · rintro ⟨⟨p, q⟩, ⟨he, hp⟩, rfl⟩
    exact ⟨p, hp, he⟩
  · rintro ⟨p, hp, he⟩
    exact ⟨(p, q), ⟨he, hp⟩, rfl⟩

def unseen (es : List (Predicate × Predicate)) (seen : List Predicate) : List Predicate :=
  (es.map Prod.snd).filter (· ∉ seen)

theorem unseen_append_lt {new : List Predicate} (hq : q ∈ new) (hedge : (p, q) ∈ es)
    (hseen : q ∉ seen) : (unseen es (seen ++ new)).length < (unseen es seen).length := by
  have hends : q ∈ es.map Prod.snd := List.mem_map_of_mem hedge
  have heq : unseen es (seen ++ new) = (unseen es seen).filter (· ∉ new) := by
    simp [unseen, List.filter_filter, Bool.and_comm]
  rw [heq]
  exact List.length_filter_lt_length_iff_exists.mpr
    ⟨q, List.mem_filter.mpr ⟨hends, decide_eq_true hseen⟩, by simpa using hq⟩

theorem subset_closure (es : List (Predicate × Predicate)) (n : ℕ) (seen : List Predicate) :
    seen ⊆ closure es n seen := by
  fun_induction closure es n seen with
  | case1 seen => exact fun _ h ↦ h
  | case2 n seen hnone => exact fun _ h ↦ h
  | case3 n seen hsome ih => exact fun _ h ↦ ih (List.mem_append_left _ h)

theorem exists_of_mem_closure (h : q ∈ closure es n seen) :
    ∃ p ∈ seen, Relation.ReflTransGen (fun p q ↦ (p, q) ∈ es) p q := by
  fun_induction closure es n seen with
  | case1 seen => exact ⟨q, h, .refl⟩
  | case2 n seen hnone => exact ⟨q, h, .refl⟩
  | case3 n seen hsome ih =>
    obtain ⟨p, hp, hpq⟩ := ih h
    rcases List.mem_append.mp hp with hp | hp
    · exact ⟨p, hp, hpq⟩
    · obtain ⟨o, ho, hop⟩ := mem_successors.mp (List.mem_filter.mp hp).1
      exact ⟨o, ho, hpq.head hop⟩

/-- Each round that finds anything leaves fewer ends to be found, so enough rounds find all. -/
theorem successors_closure_subset (hn : (unseen es seen).length ≤ n) :
    successors es (closure es n seen) ⊆ closure es n seen := by
  fun_induction closure es n seen with
  | case1 seen =>
    intro q hq
    obtain ⟨p, -, hedge⟩ := mem_successors.mp hq
    have hnone : unseen es seen = [] := List.length_eq_zero_iff.mp (Nat.le_zero.mp hn)
    simpa using List.filter_eq_nil_iff.mp hnone q (List.mem_map_of_mem hedge)
  | case2 n seen hnone =>
    intro q hq
    simpa using List.filter_eq_nil_iff.mp hnone q hq
  | case3 n seen hsome ih =>
    obtain ⟨q, hq⟩ := List.exists_mem_of_ne_nil _ hsome
    obtain ⟨hsucc, hseen⟩ := List.mem_filter.mp hq
    obtain ⟨p, -, hedge⟩ := mem_successors.mp hsucc
    have hlt := unseen_append_lt hq hedge (by simpa using hseen)
    exact ih (by omega)

theorem nodup_closure (h : seen.Nodup) : (closure es n seen).Nodup := by
  fun_induction closure es n seen with
  | case1 seen => exact h
  | case2 n seen hnone => exact h
  | case3 n seen hsome ih =>
    refine ih (List.nodup_append'.mpr ⟨h, (nodup_eraseDups _).filter _, fun q hq hnew ↦ ?_⟩)
    have hunseen := (List.mem_filter.mp hnew).2
    simp [hq] at hunseen

def Reaches (es : List (Predicate × Predicate)) : Predicate → Predicate → Prop :=
  Relation.TransGen fun p q ↦ (p, q) ∈ es

theorem reaches_edges (rules : List Rule) : Reaches (edges rules) = LeadsTo rules := by
  have hedge : (fun p q ↦ (p, q) ∈ edges rules) = Supports rules :=
    funext₂ fun _ _ ↦ propext mem_edges
  rw [Reaches, LeadsTo, hedge]

theorem mem_reached : q ∈ reached es p ↔ Reaches es p q := by
  constructor
  · intro h
    obtain ⟨o, ho, hoq⟩ := exists_of_mem_closure h
    obtain ⟨p', hp, hedge⟩ := mem_successors.mp ho
    rw [List.mem_singleton] at hp
    exact .head' (hp ▸ hedge) hoq
  · intro h
    induction h with
    | single hedge => exact subset_closure _ _ _ (mem_successors.mpr ⟨p, .head _, hedge⟩)
    | tail _ hedge ih =>
      have hrounds : (unseen es (successors es [p])).length ≤ es.length :=
        (List.length_filter_le _ _).trans_eq (List.length_map _)
      exact successors_closure_subset hrounds (mem_successors.mpr ⟨_, ih, hedge⟩)

theorem mem_group : q ∈ group es p ↔ Reaches es p q ∧ Reaches es q p := by
  rw [group, List.mem_mergeSort, List.mem_filter, mem_reached, List.contains_iff_mem, mem_reached]

theorem pairwise_before_group (es : List (Predicate × Predicate)) (p : Predicate) :
    (group es p).Pairwise Predicate.Before :=
  Predicate.pairwise_before_mergeSort ((nodup_closure (nodup_eraseDups _)).filter _)

/-- Mutual dependence is transitive, so the members of a group all have this group. -/
theorem group_eq_of_mem (h : q ∈ group es p) : group es q = group es p := by
  obtain ⟨hpq, hqp⟩ := mem_group.mp h
  refine (pairwise_before_group es q).eq_of_mem_iff (pairwise_before_group es p) fun o ↦ ?_
  rw [mem_group, mem_group]
  exact ⟨fun ⟨hqo, hoq⟩ ↦ ⟨hpq.trans hqo, hoq.trans hqp⟩,
    fun ⟨hpo, hop⟩ ↦ ⟨hqp.trans hpo, hop.trans hpq⟩⟩

def starts (es : List (Predicate × Predicate)) : List Predicate :=
  ((es.map Prod.fst).eraseDups).mergeSort Predicate.precedes

theorem mem_starts : p ∈ starts es ↔ ∃ q, (p, q) ∈ es := by
  simp [starts]

theorem pairwise_before_starts (es : List (Predicate × Predicate)) :
    (starts es).Pairwise Predicate.Before :=
  Predicate.pairwise_before_mergeSort (nodup_eraseDups _)

theorem groups_eq (rules : List Rule) : groups rules = (starts (edges rules)).filterMap fun p ↦
    if (group (edges rules) p).head? = some p then some (group (edges rules) p) else none := by
  rw [groups, List.filterMap_map]
  rfl

theorem mem_groups {g : List Predicate} :
    g ∈ groups rules ↔ ∃ p, LeadsTo rules p p ∧ g = group (edges rules) p := by
  rw [groups_eq, List.mem_filterMap, ← reaches_edges]
  constructor
  · rintro ⟨p, -, hp⟩
    obtain ⟨hhead, hg⟩ := Option.ite_none_right_eq_some.mp hp
    exact ⟨p, (mem_group.mp (List.mem_of_head? hhead)).1, (Option.some.inj hg).symm⟩
  · rintro ⟨p, hp, rfl⟩
    cases hgroup : group (edges rules) p with
    | nil =>
      have hmem : p ∈ group (edges rules) p := mem_group.mpr ⟨hp, hp⟩
      rw [hgroup] at hmem
      cases hmem
    | cons q others =>
      -- The group is listed for its first member, from which a path leads to `p`.
      have hq : q ∈ group (edges rules) p := hgroup ▸ .head _
      obtain ⟨o, hedge, -⟩ := Relation.TransGen.head'_iff.mp (mem_group.mp hq).2
      refine ⟨q, mem_starts.mpr ⟨o, hedge⟩, ?_⟩
      rw [group_eq_of_mem hq, hgroup, List.head?_cons, if_pos rfl]

theorem pairwise_groups (rules : List Rule) :
    (groups rules).Pairwise (List.Lex Predicate.Before) := by
  rw [groups_eq, List.pairwise_filterMap]
  refine (pairwise_before_starts _).imp fun {p q} hpq g hg g' hg' ↦ ?_
  obtain ⟨hhead, hg⟩ := Option.ite_none_right_eq_some.mp hg
  obtain ⟨hhead', hg'⟩ := Option.ite_none_right_eq_some.mp hg'
  obtain ⟨others, hcons⟩ := List.head?_eq_some_iff.mp hhead
  obtain ⟨others', hcons'⟩ := List.head?_eq_some_iff.mp hhead'
  rw [← Option.some.inj hg, ← Option.some.inj hg', hcons, hcons']
  exact .rel hpq

end Recursion

end Argumentation
