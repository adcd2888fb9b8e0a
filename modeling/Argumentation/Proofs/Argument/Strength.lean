import Argumentation.Argument.Construction
import Mathlib.Data.List.Basic

namespace Argumentation

theorem Valuation.strength_congr (v : Valuation) {r r' : Rule} {as as' : List Argument}
    (hr : r.degree = r'.degree) (has : as.map Argument.strength = as'.map Argument.strength) :
    v.strength r as = v.strength r' as' := by
  have hfold (l : List Argument) (d : Degree) :
      l.foldl (fun d a ↦ min d a.strength) d = (l.map Argument.strength).foldl min d :=
    List.foldl_map.symm
  simp only [strength, Rule.isDefeasible, Rule.isStrict, hfold, hr, has]

section Strength

variable {m : ℕ}

theorem Degree.meets_iff {d : Degree} : d.meets m = true ↔ m ≤ d.bits :=
  decide_eq_true_iff

theorem Degree.meets_zero (d : Degree) : d.meets 0 = true :=
  meets_iff.mpr (Nat.zero_le _)

theorem Degree.meets_min {d e : Degree} :
    (min d e).meets m = true ↔ d.meets m = true ∧ e.meets m = true := by
  show (if d.bits ≤ e.bits then d else e).meets m = true ↔ _
  split <;> simp only [meets_iff] <;> omega

theorem meets_foldl_min {as : List Argument} {d : Degree} :
    (as.foldl (fun d a ↦ min d a.strength) d).meets m = true ↔
      d.meets m = true ∧ ∀ a ∈ as, a.strength.meets m = true := by
  induction as generalizing d with
  | nil => simp
  | cons a as ih =>
    rw [List.foldl_cons, ih, Degree.meets_min, List.forall_mem_cons, and_assoc]

theorem Valuation.meets_degree {v : Valuation} {r : Rule} {as : List Argument}
    (h : (v.strength r as).meets m = true) : r.degree.meets m = true := by
  rw [strength] at h
  split at h
  · exact h
  · exact (meets_foldl_min.mp h).1

theorem Valuation.meets_subs {v : Valuation} (hv : v.prunes = true) {r : Rule} {as : List Argument}
    (h : (v.strength r as).meets m = true) : ∀ a ∈ as, a.strength.meets m = true := by
  cases v with
  | lastLink => cases hv
  | weakestLink => exact (meets_foldl_min.mp h).2

end Strength

end Argumentation
