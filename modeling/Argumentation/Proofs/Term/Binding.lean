import Argumentation.Proofs.RelatedLists
import Argumentation.Term.Basic
import Mathlib.Logic.Basic

namespace Argumentation.Term

theorem induction {motive : Term → Prop} (var : ∀ v, motive (var v)) (num : ∀ n, motive (num n))
    (app : ∀ g xs, (∀ x ∈ xs, motive x) → motive (app g xs)) : ∀ t, motive t
  | .var v => var v
  | .num n => num n
  | .app g xs => app g xs fun x _ ↦ induction var num app x

/-- Only arithmetic is looked up as something else: as its operator taken for a name. -/
theorem arithLiteral?_eq_some {t u : Term} : t.arithLiteral? = some u ↔ ∃ op xs,
    t = .app (.op (.arith op)) xs ∧ u = .app (.name (Operator.arith op).symbol) xs := by
  constructor
  · intro h
    revert h
    fun_cases arithLiteral? t <;> intro h <;> cases h
    exact ⟨_, _, rfl, rfl⟩
  · rintro ⟨op, xs, rfl, rfl⟩
    rfl

theorem renameAll_eq_map (f : Variable → Variable) (xs : List Term) :
    renameAll f xs = xs.map (rename f) := by
  induction xs with
  | nil => rfl
  | cons x xs ih => rw [renameAll, ih, List.map_cons]

theorem bindAll_eq_map (f : Variable → Term) (xs : List Term) :
    bindAll f xs = xs.map (bind f) := by
  induction xs with
  | nil => rfl
  | cons x xs ih => rw [bindAll, ih, List.map_cons]

theorem occurrencesAll_eq_flatMap (xs : List Term) :
    occurrencesAll xs = xs.flatMap occurrences := by
  induction xs with
  | nil => rfl
  | cons x xs ih => rw [occurrencesAll, ih, List.flatMap_cons]

theorem mem_occurrencesAll {xs : List Term} {v : Variable} :
    v ∈ occurrencesAll xs ↔ ∃ x ∈ xs, v ∈ x.occurrences := by
  rw [occurrencesAll_eq_flatMap, List.mem_flatMap]

theorem occurrences_rename (f : Variable → Variable) (t : Term) :
    (t.rename f).occurrences = t.occurrences.map f := by
  induction t using Term.induction with
  | var v => rfl
  | num n => rfl
  | app g xs ih =>
    rw [rename, renameAll_eq_map, occurrences, occurrences, occurrencesAll_eq_flatMap,
      occurrencesAll_eq_flatMap, List.flatMap_map, List.map_flatMap]
    exact List.flatMap_congr ih

theorem size_pos (t : Term) : 0 < t.size := by
  cases t <;> simp [size]

theorem size_le_sizeAll {xs : List Term} {x : Term} (hx : x ∈ xs) : x.size ≤ sizeAll xs := by
  induction xs with
  | nil => cases hx
  | cons y xs ih =>
    rw [sizeAll]
    rcases List.mem_cons.mp hx with rfl | hx
    · omega
    · have := ih hx
      omega

theorem occurrences_fold (g : Symbol) (xs : List Term) :
    (fold g xs).occurrences = occurrencesAll xs := by
  unfold fold
  split
  · split <;> rfl
  · rfl

theorem bind_fold (f : Variable → Term) (g : Symbol) (xs : List Term) :
    (fold g xs).bind f = fold g (xs.map (bind f)) := by
  conv => lhs; unfold fold
  split
  · rename_i op a b
    simp only [List.map_cons, List.map_nil, bind, fold]
    split
    · rfl
    · rename_i hnone
      simp only [bind, bindAll, fold, hnone]
  · rw [bind, bindAll_eq_map]

theorem bind_congr {f g : Variable → Term} {t : Term} (h : ∀ v ∈ t.occurrences, f v = g v) :
    t.bind f = t.bind g := by
  induction t using Term.induction with
  | var v => exact h v (.head _)
  | num n => rfl
  | app c xs ih =>
    rw [bind, bind, bindAll_eq_map, bindAll_eq_map]
    refine congrArg _ (List.map_congr_left fun x hx ↦ ih x hx fun v hv ↦ h v ?_)
    exact mem_occurrencesAll.mpr ⟨x, hx, hv⟩

theorem bind_bind (f g : Variable → Term) (t : Term) :
    (t.bind f).bind g = t.bind fun v ↦ (f v).bind g := by
  induction t using Term.induction with
  | var v => rfl
  | num n => rfl
  | app c xs ih =>
    rw [bind, bind_fold, bind, bindAll_eq_map, bindAll_eq_map, List.map_map]
    exact congrArg _ (List.map_congr_left ih)

theorem mem_occurrences_bind {f : Variable → Term} {t : Term} {v : Variable} :
    v ∈ (t.bind f).occurrences ↔ ∃ w ∈ t.occurrences, v ∈ (f w).occurrences := by
  induction t using Term.induction with
  | var w => simp [bind, occurrences]
  | num n => simp [bind, occurrences]
  | app c xs ih =>
    rw [bind, occurrences_fold, bindAll_eq_map, occurrences, mem_occurrencesAll]
    simp only [mem_occurrencesAll, List.mem_map, exists_exists_and_eq_and]
    constructor
    · rintro ⟨x, hx, hv⟩
      obtain ⟨w, hw, hv⟩ := (ih x hx).mp hv
      exact ⟨w, ⟨x, hx, hw⟩, hv⟩
    · rintro ⟨w, ⟨x, hx, hw⟩, hv⟩
      exact ⟨x, hx, (ih x hx).mpr ⟨w, hw, hv⟩⟩

end Argumentation.Term
