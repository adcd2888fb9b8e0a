import Argumentation.Proofs.Argument.Agreement
import Argumentation.Proofs.Argument.Soundness
import Argumentation.Proofs.RelatedLists

namespace Argumentation

open Equiv (Perm)

def ArgumentList.meets (l : ArgumentList) (m : Threshold) : Bool :=
  l.arguments.all (·.strength.meets m)

theorem ArgumentList.meets_form (l : ArgumentList) (m : Threshold) :
    l.form.meets m = l.meets m := by
  simp only [meets, form, List.all_map, Function.comp_def, Argument.form_strength]

theorem ArgumentList.meets_smul (π : Perm ℕ) (l : ArgumentList) (m : Threshold) :
    (π • l).meets m = l.meets m := by
  show (l.arguments.map (π • ·)).all (·.strength.meets m) = _
  simp only [meets, List.all_map, Function.comp_def, Argument.smul_strength]

def Position.unbounded (p : Position) : Position :=
  { p with threshold := 0 }

section Unbounded

variable (p : Position) (goal : Term) (m : Threshold)

theorem Position.unbounded_threshold : p.unbounded.threshold = 0 :=
  rfl

theorem Position.unbounded_depth : p.unbounded.depth = p.depth :=
  rfl

theorem Position.unbounded_repeats : p.unbounded.repeats goal = p.repeats goal :=
  rfl

theorem Position.unbounded_below : p.unbounded.below goal m = p.below goal m :=
  rfl

theorem Position.below_unbounded : (p.below goal m).unbounded = p.below goal 0 :=
  rfl

end Unbounded

/-- Leaving out some elements and then what is made from the others is leaving out at the end, if
nothing is left of what is made from the elements left out. -/
theorem flatMap_filter {α β : Type} {l : List α} {keep : α → Bool} {keep' : β → Bool}
    {f g : α → List β} (h : ∀ x ∈ l, keep x = true → f x = (g x).filter keep')
    (hnot : ∀ x ∈ l, keep x = false → (g x).filter keep' = []) :
    (l.filter keep).flatMap f = (l.flatMap g).filter keep' := by
  induction l with
  | nil => rfl
  | cons x l ih =>
    have ih := ih (fun y hy ↦ h y (.tail _ hy)) fun y hy ↦ hnot y (.tail _ hy)
    rw [List.flatMap_cons, List.filter_append, ← ih]
    cases hx : keep x with
    | true => rw [List.filter_cons_of_pos hx, List.flatMap_cons, h x (.head _) hx]
    | false => rw [List.filter_cons_of_neg (by simp [hx]), hnot x (.head _) hx, List.nil_append]

namespace Theory

variable {t : Theory} {m : Threshold}

/-- Where the arguments computed under bindings of a kind are those of another computation that are
kept, and have bindings of that kind too, the lists are those of which every argument is kept. -/
theorem allLists_keep {keep : Argument → Bool} (kind : Substitution → Prop)
    {computed computed' : Substitution → Term → ℕ → List (Argument × ℕ)} {es : List Term}
    (h : ∀ u n, kind u → ∀ e ∈ es, computed u e n = (computed' u e n).filter (keep ·.1) ∧
      ∀ x ∈ computed' u e n, kind x.1.substitution) {s : Substitution} (hs : kind s) (n : ℕ) :
    allLists computed s n es =
        (allLists computed' s n es).filter (·.1.arguments.all keep) ∧
      ∀ x ∈ allLists computed' s n es, kind x.1.substitution := by
  induction es using List.reverseRecOn with
  | nil => exact ⟨rfl, List.forall_mem_singleton.mpr hs⟩
  | append_singleton es e ih =>
    obtain ⟨hlists, hkind⟩ := ih fun u n hu e he ↦ h u n hu e (List.mem_append_left _ he)
    have hlast (x : ArgumentList × ℕ) (hx : x ∈ allLists computed' s n es) :=
      h x.1.substitution x.2 (hkind x hx) e (List.mem_append_right _ (.head _))
    rw [allLists_concat, allLists_concat, hlists]
    constructor
    · refine flatMap_filter (fun x hx hkeep ↦ ?_) fun x _ hkeep ↦ ?_
      · simp [(hlast x hx).1, List.filter_map, Function.comp_def, ArgumentList.push, hkeep]
      · simp [List.filter_map, Function.comp_def, ArgumentList.push, hkeep]
    · intro y hy
      obtain ⟨x, hx, hy⟩ := List.mem_flatMap.mp hy
      obtain ⟨a, ha, rfl⟩ := List.mem_map.mp hy
      exact (hlast x hx).2 a ha

theorem allLists_filter {computed computed' : Substitution → Term → ℕ → List (Argument × ℕ)}
    (h : ∀ u e n, computed u e n = (computed' u e n).filter (·.1.strength.meets m))
    (s : Substitution) (n : ℕ) (es : List Term) :
    allLists computed s n es = (allLists computed' s n es).filter (·.1.meets m) :=
  (allLists_keep (fun _ ↦ True) (fun u n _ e _ ↦ ⟨h u e n, fun _ _ ↦ trivial⟩) trivial n).1

theorem meets_subThreshold {r : Rule} {l : ArgumentList}
    (h : (t.valuation.strength r l.arguments).meets m = true) :
    l.meets (t.subThreshold m) = true := by
  rw [ArgumentList.meets, List.all_eq_true, subThreshold]
  split
  · exact Valuation.meets_subs ‹_› h
  · exact fun a _ ↦ a.strength.meets_zero

theorem allByRule_filter {computed computed' : Substitution → Term → ℕ → List (Argument × ℕ)}
    {p : Position} (h : ∀ u e n, computed u e n =
      (computed' u e n).filter (·.1.strength.meets (t.subThreshold p.threshold)))
    (s : Substitution) (literal : Term) (n : ℕ) (r : Rule) :
    t.allByRule computed p s literal n r =
      (t.allByRule computed' p.unbounded s literal n r).filter
        (·.1.strength.meets p.threshold) := by
  have hconclusion (l : ArgumentList) : t.conclusion? p.unbounded (r.renameApart n) l =
      some ⟨0, r.renameApart n, l.substitution, l.arguments,
        t.valuation.strength (r.renameApart n) l.arguments, p.depth⟩ := by
    rw [conclusion?]
    exact if_pos (Degree.meets_zero _)
  rw [allByRule, allByRule]
  dsimp only
  split
  · rw [allLists_filter h, List.filterMap_filter, List.filter_filterMap]
    refine List.filterMap_congr fun x _ ↦ ?_
    rw [hconclusion, conclusion?]
    by_cases hmeets :
        (t.valuation.strength (r.renameApart n) x.1.arguments).meets p.threshold = true
    · simp [hmeets, meets_subThreshold hmeets, Option.filter]
    · simp [hmeets, Option.filter]
  · rfl

theorem allArguments_filter (t : Theory) (p : Position) (goal : Term) :
    p.threshold ≤ Degree.one.bits → ∀ s n, t.allArguments p s goal n =
      (t.allArguments p.unbounded s goal n).filter (·.1.strength.meets p.threshold) := by
  induction p, goal using t.allArguments_induction with
  | step p goal ihbelow _ =>
    intro hp s n
    have hone (u : Substitution) : [(evaluation p.unbounded goal u, n)].filter
        (·.1.strength.meets p.threshold) = [(evaluation p goal u, n)] :=
      List.filter_cons_of_pos (Degree.meets_iff.mpr hp)
    rw [allArguments_eq, allArguments_eq]
    split
    · rfl
    · exact (hone _).symm
    · rename_i literal _
      rw [lookupAll, lookupAll, Position.unbounded_depth, Position.unbounded_repeats,
        Position.unbounded_threshold, Position.unbounded_below]
      by_cases hguards : t.maxDepth < p.depth ∨ p.repeats literal = true
      · rw [if_pos hguards, if_pos hguards]
        rfl
      · rw [if_neg hguards, if_neg hguards, List.filter_flatMap]
        have hdepth : p.depth ≤ t.maxDepth := Nat.le_of_not_lt fun h ↦ hguards (.inl h)
        have hthreshold : t.subThreshold p.threshold ≤ Degree.one.bits := by
          rw [subThreshold]
          split
          · exact hp
          · exact Nat.zero_le _
        refine List.flatMap_congr fun r _ ↦ allByRule_filter (fun u e n ↦ ?_) s literal n r
        have hzero : t.subThreshold 0 = 0 := ite_self 0
        rw [ihbelow hdepth _ (u.apply e) rfl hthreshold u n, Position.below_unbounded, hzero]
        rfl
    · -- Under a negation as failure there is no bound on either side.
      rw [Position.unbounded_below]
      split
      · exact (hone s).symm
      · rfl

/-- Asking for arguments of at least some strength, or for lists of them, gives those of all
arguments or lists that are strong enough, in the same order, whatever numbers the two searches
take. -/
theorem bounded_eq_filtered (t : Theory) {m : Threshold} (hm : m ≤ Degree.one.bits) {n : ℕ}
    {supply supply' : Supply} (hn : n ≤ supply.freeVariable) (hn' : n ≤ supply'.freeVariable) :
    (∀ e : Term, (∀ v ∈ e.occurrences, v.id < n) →
      List.Forall₂ (Alike Argument.form n) ((t.arguments m e).toList supply).1
        (((t.arguments 0 e).toList supply').1.filter (·.strength.meets m))) ∧
    ∀ es : List Term, (∀ e ∈ es, ∀ v ∈ e.occurrences, v.id < n) →
      List.Forall₂ (Alike ArgumentList.form n) ((t.argumentLists m es).toList supply).1
        (((t.argumentLists 0 es).toList supply').1.filter
          (·.arguments.all (·.strength.meets m))) := by
  have hempty := Substitution.below_empty n
  have hfilter (s : Substitution) (e : Term) (n : ℕ) :
      t.allArguments (.root m) s (s.apply e) n =
        (t.allArguments (.root 0) s (s.apply e) n).filter (·.1.strength.meets m) :=
    t.allArguments_filter (.root m) _ hm s n
  refine ⟨fun e he ↦ ?_, fun es hes ↦ ?_⟩
  · have he := Term.below_of_occurrences he
    have hbounded := argumentsUnder_alike (t := t) (m := m) hempty Substitution.acyclic_empty he hn
    have hall := argumentsUnder_alike (t := t) (m := 0) hempty Substitution.acyclic_empty he hn'
    rw [hfilter] at hbounded
    have hmeets (a : Argument) (x : Argument × ℕ) (h : Alike Argument.form n a x.1) :
        a.strength.meets m = true ↔ x.1.strength.meets m = true := by
      rw [h.eq_of_invariant Argument.form_strength Argument.smul_strength]
    have hkept := List.rel_filter (p := (·.strength.meets m)) (q := (·.1.strength.meets m))
      (fun a x ↦ hmeets a x) hall
    exact forall₂_of_common hbounded hkept fun _ _ _ ha hc ↦ ha.of_common hc
  · have hes (e : Term) (he : e ∈ es) : Below n e := Term.below_of_occurrences (hes e he)
    have hbounded := listsUnder_alike (t := t) (m := m) hempty Substitution.acyclic_empty hes hn
    have hall := listsUnder_alike (t := t) (m := 0) hempty Substitution.acyclic_empty hes hn'
    rw [allLists_filter hfilter] at hbounded
    have hmeets (l : ArgumentList) (x : ArgumentList × ℕ) (h : Alike ArgumentList.form n l x.1) :
        l.meets m = true ↔ x.1.meets m = true := by
      rw [h.eq_of_invariant (f := (·.meets m)) (fun l ↦ l.meets_form m) fun π l ↦ l.meets_smul π m]
    have hkept := List.rel_filter (p := (·.meets m)) (q := (·.1.meets m))
      (fun l x ↦ hmeets l x) hall
    exact forall₂_of_common hbounded hkept fun _ _ _ hk hl ↦ hk.of_common hl

def quarter : Degree :=
  ⟨0x3FD0000000000000, by decide, by decide⟩

def birds : Theory :=
  let x := Term.var ⟨"X", 1⟩
  ofRules .weakestLink [.plain (.literal "bird" [.const "pingu"]) [] quarter,
    .plain (.literal "bird" [.const "tweety"]) [] .one,
    .plain (.literal "flies" [x]) [.literal "bird" [x]] .one]

def flyer : Term :=
  .literal "flies" [.var ⟨"W", 2⟩]

theorem birds_filtered :
    (((birds.arguments 0 flyer).toList ⟨3, 1⟩).1.map (·.strength.bits)) =
      [quarter.bits, Degree.one.bits] ∧
    List.Forall₂ (Alike Argument.form 3) ((birds.arguments Degree.one.bits flyer).toList ⟨3, 1⟩).1
      (((birds.arguments 0 flyer).toList ⟨3, 1⟩).1.filter (·.strength.meets Degree.one.bits)) ∧
    List.Forall₂ (Alike ArgumentList.form 3)
      ((birds.argumentLists Degree.one.bits [flyer, flyer]).toList ⟨3, 1⟩).1
      (((birds.argumentLists 0 [flyer, flyer]).toList ⟨3, 1⟩).1.filter
        (·.arguments.all (·.strength.meets Degree.one.bits))) := by
  have hnumbers : 3 ≤ (⟨3, 1⟩ : Supply).freeVariable := Nat.le_refl 3
  have hfiltered := birds.bounded_eq_filtered (Nat.le_refl Degree.one.bits) hnumbers hnumbers
  exact ⟨by decide +kernel, hfiltered.1 flyer (by decide),
    hfiltered.2 [flyer, flyer] (by decide)⟩

end Theory

end Argumentation
