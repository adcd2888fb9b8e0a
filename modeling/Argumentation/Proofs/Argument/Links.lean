import Argumentation.Proofs.Argument.Strictness
import Argumentation.Proofs.Argument.Threshold
import Argumentation.Proofs.Dialogue.Coherence
import Mathlib.Data.Set.Lattice
import Mathlib.Order.Bounds.Basic

namespace Argumentation

instance Degree.linearOrder : LinearOrder Degree where
  le_refl _ := Nat.le_refl _
  le_trans _ _ _ := Nat.le_trans
  le_antisymm := by
    rintro ⟨m, _, _⟩ ⟨n, _, _⟩ hle hge
    obtain rfl : m = n := Nat.le_antisymm hle hge
    rfl
  le_total _ _ := Nat.le_total _ _
  lt_iff_le_not_ge _ _ := Nat.lt_iff_le_and_not_ge
  toDecidableLE _ _ := inferInstance
  toDecidableEq := inferInstance
  min := min
  min_def _ _ := rfl

/-- What is folded keeps the least of what there was and of what there is for each argument. -/
theorem isLeast_foldl_min {S : Argument → Set Degree} {T : Set Degree} {as : List Argument}
    {d : Degree} (hT : IsLeast T d) (hS : ∀ a ∈ as, IsLeast (S a) a.strength) :
    IsLeast (T ∪ ⋃ a ∈ as, S a) (as.foldl (fun d a ↦ min d a.strength) d) := by
  induction as generalizing T d with
  | nil => simpa using hT
  | cons a as ih =>
    obtain ⟨ha, has⟩ := List.forall_mem_cons.mp hS
    have hunion : T ∪ ⋃ b ∈ a :: as, S b = T ∪ S a ∪ ⋃ b ∈ as, S b := by
      ext e
      simp [or_assoc]
    rw [hunion]
    exact ih (hT.union ha) has

namespace Argument

variable {a b n : Argument} {above : List Rule} {v : Valuation}

inductive Descends : Argument → List Rule → Argument → Prop
  | root (a : Argument) : Descends a [] a
  | sub {a b n : Argument} {above : List Rule} : b ∈ a.subs → Descends b above n →
      Descends a (a.rule :: above) n

def degrees (a : Argument) : Set Degree :=
  {d | ∃ n ∈ a.subtree, n.rule.degree = d}

def lastDegrees (a : Argument) : Set Degree :=
  {d | ∃ above n, a.Descends above n ∧ (∀ r ∈ above, r.isDefeasible = false) ∧
    n.rule.isDefeasible = true ∧ n.rule.degree = d}

theorem degrees_eq : a.degrees = {a.rule.degree} ∪ ⋃ b ∈ a.subs, b.degrees := by
  ext d
  constructor
  · rintro ⟨n, hn, hd⟩
    rcases mem_subtree.mp hn with rfl | ⟨b, hb, hn⟩
    · exact .inl hd.symm
    · exact .inr (Set.mem_biUnion hb ⟨n, hn, hd⟩)
  · rintro (rfl | hd)
    · exact ⟨a, a.self_mem_subtree, rfl⟩
    · obtain ⟨b, hb, n, hn, hd⟩ := Set.mem_iUnion₂.mp hd
      exact ⟨n, mem_subtree.mpr (.inr ⟨b, hb, hn⟩), hd⟩

theorem lastDegrees_of_isDefeasible (ha : a.rule.isDefeasible = true) :
    a.lastDegrees = {a.rule.degree} := by
  ext d
  constructor
  · rintro ⟨above, n, hn, habove, -, hd⟩
    cases hn with
    | root => exact hd.symm
    | sub _ _ => simp [habove a.rule (.head _)] at ha
  · rintro rfl
    exact ⟨[], a, .root a, by simp, ha, rfl⟩

theorem lastDegrees_of_not_isDefeasible (ha : a.rule.isDefeasible = false) :
    a.lastDegrees = ⋃ b ∈ a.subs, b.lastDegrees := by
  ext d
  simp only [Set.mem_iUnion]
  constructor
  · rintro ⟨above, n, hn, habove, hdefeasible, hd⟩
    cases hn with
    | root => simp [ha] at hdefeasible
    | sub hb hn => exact ⟨_, hb, _, n, hn, fun r hr ↦ habove r (.tail _ hr), hdefeasible, hd⟩
  · rintro ⟨b, hb, above, n, hn, habove, hdefeasible, hd⟩
    exact ⟨_, n, .sub hb hn, List.forall_mem_cons.mpr ⟨ha, habove⟩, hdefeasible, hd⟩

end Argument

def Valuation.Measures : Valuation → Argument → Degree → Prop
  | weakestLink, a, d => IsLeast a.degrees d
  | lastLink, a, d => IsLeast a.lastDegrees d ∨ a.lastDegrees = ∅ ∧ d = .one

theorem Valuation.measures_lastLink_iff {a : Argument} {d : Degree} :
    lastLink.Measures a d ↔ IsLeast ({.one} ∪ a.lastDegrees) d := by
  constructor
  · rintro (⟨hd, hlower⟩ | ⟨hempty, rfl⟩)
    · refine ⟨.inr hd, ?_⟩
      rintro e (rfl | he)
      · exact d.le_one
      · exact hlower he
    · rw [hempty, Set.union_empty]
      exact isLeast_singleton
  · rintro ⟨hd, hlower⟩
    rcases a.lastDegrees.eq_empty_or_nonempty with hempty | ⟨e, he⟩
    · rw [hempty, Set.union_empty] at hd
      exact .inr ⟨hempty, hd⟩
    · refine .inl ⟨?_, fun e he ↦ hlower (.inr he)⟩
      rcases hd with rfl | hd
      · have hone : e ≤ .one := e.le_one
        exact hone.antisymm (hlower (.inr he)) ▸ he
      · exact hd

/-- One step up: the measure of an argument from those of its sub-arguments. -/
theorem Valuation.measures_strength {v : Valuation} {a : Argument}
    (h : ∀ b ∈ a.subs, v.Measures b b.strength) : v.Measures a (v.strength a.rule a.subs) := by
  cases v with
  | weakestLink =>
    rw [Measures, Argument.degrees_eq]
    exact isLeast_foldl_min isLeast_singleton h
  | lastLink =>
    cases hrule : a.rule.isDefeasible with
    | true =>
      rw [Measures, Argument.lastDegrees_of_isDefeasible hrule, strength, if_pos ⟨rfl, hrule⟩]
      exact .inl isLeast_singleton
    | false =>
      simp only [measures_lastLink_iff] at h ⊢
      have hone : a.rule.degree = .one := by
        simpa [Rule.isDefeasible, Rule.isStrict_iff] using hrule
      -- The 1 of the strict root is also what sub-arguments by strict rules alone count for.
      have hunion : {.one} ∪ a.lastDegrees =
          {a.rule.degree} ∪ ⋃ b ∈ a.subs, ({.one} ∪ b.lastDegrees) := by
        rw [hone, Argument.lastDegrees_of_not_isDefeasible hrule]
        ext d
        simp only [Set.mem_union, Set.mem_singleton_iff, Set.mem_iUnion]
        grind
      rw [hunion, strength, if_neg (by simp [hrule])]
      exact isLeast_foldl_min isLeast_singleton h

/-- By induction on the tree: what is computed at every node is measured. -/
theorem Argument.IsValued.measures {v : Valuation} {a : Argument} (h : a.IsValued v) :
    ∀ n ∈ a.subtree, v.Measures n n.strength := by
  induction a using Argument.induction with
  | step a ih =>
    obtain ⟨hstrength, hsubs⟩ := forall_mem_subtree.mp h
    have hmeasures (b : Argument) (hb : b ∈ a.subs) := ih b hb (hsubs b hb)
    refine forall_mem_subtree.mpr ⟨?_, hmeasures⟩
    rw [hstrength]
    exact Valuation.measures_strength fun b hb ↦ hmeasures b hb b b.self_mem_subtree

namespace Theory

variable {t : Theory} {a : Argument}

theorem measures_of_builds (h : ∀ n ∈ a.subtree, t.Builds n) :
    ∀ n ∈ a.subtree, t.valuation.Measures n n.strength :=
  Argument.IsValued.measures fun n hn ↦ (h n hn).strength_eq

/-- The strength of every node of an argument that is built is the least degree of all its rules
or, by the last link, of the defeasible ones with none above them, and 1 if there are none. -/
theorem strength_measured (t : Theory) :
    (∀ (s : Substitution) (m : Threshold) (e : Term) (supply : Supply),
      ∀ a ∈ ((t.argumentsUnder s m e).toList supply).1, ∀ n ∈ a.subtree,
        t.valuation.Measures n n.strength) ∧
    ∀ (m : Threshold) (es : List Term) (supply : Supply),
      ∀ l ∈ ((t.argumentLists m es).toList supply).1, ∀ a ∈ l.arguments, ∀ n ∈ a.subtree,
        t.valuation.Measures n n.strength := by
  constructor
  · intro s m e supply
    exact ((solve_built _ _ _ _).imp fun a ha ↦ measures_of_builds ha.builds).toList supply
  · intro m es supply
    have hbuilt : (t.argumentLists m es).All (t.BuiltList (.root m) .empty ([] ++ es)) :=
      lists_built (.empty _ _) fun u e ↦ solve_built _ _ u (u.apply e)
    exact (hbuilt.imp fun l hl a ha ↦ measures_of_builds (hl.builds a ha)).toList supply

def chained (v : Valuation) : Theory :=
  ofRules v [.plain (.const "d") [] quarter,
    .plain (.const "c") [] .threeQuarters,
    .plain (.const "b") [.const "d"] .half,
    .plain (.const "a") [.const "b", .const "c"] .one]

theorem chained_measured :
    let arguments (v : Valuation) := (((chained v).arguments 0 (.const "a")).toList ⟨1, 1⟩).1
    (arguments .weakestLink).map Argument.strength = [quarter] ∧
    (arguments .lastLink).map Argument.strength = [.half] ∧
    (∀ a ∈ arguments .weakestLink, ∀ n ∈ a.subtree, IsLeast n.degrees n.strength) ∧
    (∀ a ∈ arguments .lastLink, ∀ n ∈ a.subtree,
      IsLeast n.lastDegrees n.strength ∨ n.lastDegrees = ∅ ∧ n.strength = .one) ∧
    ∃ l ∈ (((chained .lastLink).argumentLists 0 [.const "a", .const "b"]).toList ⟨1, 1⟩).1,
      ∀ a ∈ l.arguments, ∀ n ∈ a.subtree, Valuation.lastLink.Measures n n.strength := by
  intro arguments
  refine ⟨by decide +kernel, by decide +kernel, ?_, ?_, ?_⟩
  · exact (chained .weakestLink).strength_measured.1 .empty 0 (.const "a") ⟨1, 1⟩
  · exact (chained .lastLink).strength_measured.1 .empty 0 (.const "a") ⟨1, 1⟩
  · have hlists := (chained .lastLink).strength_measured.2 0 [.const "a", .const "b"] ⟨1, 1⟩
    obtain ⟨l, hl⟩ := List.exists_mem_of_length_pos (show 0 < (((chained .lastLink).argumentLists 0
      [.const "a", .const "b"]).toList ⟨1, 1⟩).1.length by decide +kernel)
    exact ⟨l, hl, hlists l hl⟩

end Theory

end Argumentation
