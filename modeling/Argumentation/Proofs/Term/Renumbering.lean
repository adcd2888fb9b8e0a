import Argumentation.Proofs.Term.Binding
import Argumentation.Term.Variant
import Mathlib.Algebra.Group.Action.End
import Mathlib.Algebra.Group.Action.Prod
import Mathlib.GroupTheory.GroupAction.Support

namespace Argumentation

open Equiv (Perm)

namespace Variable

instance : MulAction (Perm ℕ) Variable where
  smul π v := ⟨v.name, π v.id⟩
  one_smul _ := rfl
  mul_smul _ _ _ := rfl

theorem smul_def (π : Perm ℕ) (v : Variable) : π • v = ⟨v.name, π v.id⟩ :=
  rfl

end Variable

namespace Term

theorem rename_congr {f g : Variable → Variable} {t : Term}
    (h : ∀ v ∈ t.occurrences, f v = g v) : t.rename f = t.rename g := by
  induction t using Term.induction with
  | var v => rw [rename, rename, h v (.head _)]
  | num n => rfl
  | app c xs ih =>
    simp only [rename, renameAll_eq_map, app.injEq, true_and]
    exact List.map_congr_left fun x hx ↦ ih x hx fun v hv ↦ h v (mem_occurrencesAll.mpr ⟨x, hx, hv⟩)

theorem rename_id (t : Term) : t.rename id = t := by
  induction t using Term.induction with
  | var v => rfl
  | num n => rfl
  | app c xs ih =>
    rw [rename, renameAll_eq_map, List.map_congr_left ih, List.map_id']

theorem rename_rename (f g : Variable → Variable) (t : Term) :
    (t.rename f).rename g = t.rename (g ∘ f) := by
  induction t using Term.induction with
  | var v => rfl
  | num n => rfl
  | app c xs ih =>
    simp only [rename, renameAll_eq_map, List.map_map, app.injEq, true_and]
    exact List.map_congr_left ih

instance : MulAction (Perm ℕ) Term where
  smul π t := t.rename (π • ·)
  one_smul t := rename_id t
  mul_smul π ρ t := (rename_rename (ρ • ·) (π • ·) t).symm

section Action

variable (π : Perm ℕ)

@[simp]
theorem smul_var (v : Variable) : π • var v = var (π • v) :=
  rfl

@[simp]
theorem smul_num (n : Number) : π • num n = num n :=
  rfl

@[simp]
theorem smul_app (g : Symbol) (xs : List Term) : π • app g xs = app g (xs.map (π • ·)) := by
  exact congrArg (app g) (renameAll_eq_map _ xs)

theorem smul_fold (g : Symbol) (xs : List Term) : π • fold g xs = fold g (xs.map (π • ·)) := by
  unfold fold
  split
  · rename_i op a b
    simp only [List.map_cons, List.map_nil, smul_num]
    split <;> simp
  · rename_i hother
    rw [smul_app]
    split
    · rename_i op a b hxs
      -- Numbers come from numbers alone.
      obtain ⟨x, ys, rfl, hx, hys⟩ := List.map_eq_cons_iff.mp hxs
      obtain ⟨y, zs, rfl, hy, hzs⟩ := List.map_eq_cons_iff.mp hys
      cases List.map_eq_nil_iff.mp hzs
      cases x <;> simp at hx
      cases y <;> simp at hy
      exact absurd rfl (hother op _ _ rfl)
    · rfl

theorem smul_bind (f : Variable → Term) (t : Term) :
    π • t.bind f = (π • t).bind fun v ↦ π • f (π⁻¹ • v) := by
  induction t using Term.induction with
  | var v => rw [smul_var, bind, bind, inv_smul_smul]
  | num n => rfl
  | app g xs ih =>
    rw [bind, smul_fold, smul_app, bind, bindAll_eq_map, bindAll_eq_map, List.map_map, List.map_map]
    exact congrArg _ (List.map_congr_left ih)

theorem occurrences_smul (t : Term) : (π • t).occurrences = t.occurrences.map (π • ·) :=
  occurrences_rename _ t

theorem mentions_smul (t : Term) (v : Variable) : (π • t).mentions (π • v) = t.mentions v := by
  rw [mentions, mentions, occurrences_smul, Bool.eq_iff_iff]
  simp

theorem size_smul (t : Term) : (π • t).size = t.size := by
  have hall (xs : List Term) (ih : ∀ x ∈ xs, (π • x).size = x.size) :
      sizeAll (xs.map (π • ·)) = sizeAll xs := by
    induction xs with
    | nil => rfl
    | cons x xs ihxs =>
      rw [List.map_cons, sizeAll, sizeAll, ih x (.head _), ihxs fun y hy ↦ ih y (.tail _ hy)]
  induction t using Term.induction with
  | var v => rfl
  | num n => rfl
  | app g xs ih => rw [smul_app, size, size, hall xs ih]

theorem same_smul (t u : Term) : (π • t).same (π • u) = t.same u := by
  have hall (xs ys : List Term)
      (ih : ∀ x ∈ xs, ∀ u : Term, (π • x).same (π • u) = x.same u) :
      sameAll (xs.map (π • ·)) (ys.map (π • ·)) = sameAll xs ys := by
    induction xs generalizing ys with
    | nil => cases ys <;> rfl
    | cons x xs ihxs =>
      cases ys with
      | nil => rfl
      | cons y ys =>
        simp only [List.map_cons, sameAll, ih x (.head _) y,
          ihxs ys fun z hz ↦ ih z (.tail _ hz)]
  induction t using Term.induction generalizing u with
  | var v => cases u <;> simp [same]
  | num n => cases u <;> simp [same]
  | app g xs ih =>
    cases u with
    | app c ys => simp only [smul_app, same, hall xs ys ih]
    | _ => simp [same]

theorem evaluate_smul (t : Term) : (π • t).evaluate = t.evaluate := by
  have hall (xs : List Term) (ih : ∀ x ∈ xs, (π • x).evaluate = x.evaluate) :
      evaluateAll (xs.map (π • ·)) = evaluateAll xs := by
    induction xs with
    | nil => rfl
    | cons x xs ihxs =>
      simp only [List.map_cons, evaluateAll, ih x (.head _), ihxs fun y hy ↦ ih y (.tail _ hy)]
  induction t using Term.induction with
  | var v => rfl
  | num n => rfl
  | app g xs ih =>
    rw [smul_app]
    cases g with
    | name f => rfl
    | op op =>
      cases op with
      | arith op => simp only [evaluate, hall xs ih]
      | _ => rfl

theorem predicate?_smul (t : Term) : (π • t).predicate? = t.predicate? := by
  cases t with
  | app g xs => cases g <;> simp [predicate?]
  | _ => rfl

theorem isVariable_smul (t : Term) : (π • t).isVariable = t.isVariable := by
  cases t <;> simp [isVariable]

theorem arithLiteral?_smul (t : Term) :
    (π • t).arithLiteral? = t.arithLiteral?.map (π • ·) := by
  cases t with
  | app g xs =>
    rw [smul_app]
    cases g with
    | name f => rfl
    | op op => cases op <;> simp [arithLiteral?]
  | _ => rfl

end Action

end Term

namespace Pairing

variable (π ρ : Perm ℕ)

theorem image?_smul (p : Pairing) (v : Variable) :
    image? (p.map (Prod.map (π • ·) (ρ • ·))) (π • v) = (p.image? v).map (ρ • ·) := by
  have hfind : p.find? ((·.1 == π • v) ∘ Prod.map (π • ·) (ρ • ·)) = p.find? (·.1 == v) := by
    congr 1
    funext e
    simp
  rw [image?, image?, List.find?_map, hfind, Option.map_map, Option.map_map]
  rfl

theorem preimage?_smul (p : Pairing) (w : Variable) :
    preimage? (p.map (Prod.map (π • ·) (ρ • ·))) (ρ • w) = (p.preimage? w).map (π • ·) := by
  have hfind : p.find? ((·.2 == ρ • w) ∘ Prod.map (π • ·) (ρ • ·)) = p.find? (·.2 == w) := by
    congr 1
    funext e
    simp
  rw [preimage?, preimage?, List.find?_map, hfind, Option.map_map, Option.map_map]
  rfl

theorem pair_smul (p : Pairing) (v w : Variable) :
    pair (p.map (Prod.map (π • ·) (ρ • ·))) (π • v) (ρ • w) =
      (p.pair v w).map (List.map (Prod.map (π • ·) (ρ • ·))) := by
  unfold pair
  rw [image?_smul, preimage?_smul]
  cases p.image? v with
  | none => cases p.preimage? w <;> rfl
  | some w' =>
    cases p.preimage? w with
    | none => rfl
    | some v' =>
      simp only [Option.map_some, smul_left_cancel_iff]
      split <;> rfl

end Pairing

namespace Term

variable (π ρ : Perm ℕ)

theorem pairWith_smul (t u : Term) (p : Pairing) :
    pairWith (π • t) (ρ • u) (p.map (Prod.map (π • ·) (ρ • ·))) =
      (pairWith t u p).map (List.map (Prod.map (π • ·) (ρ • ·))) := by
  have hall (xs ys : List Term) (p : Pairing) (ih : ∀ x ∈ xs, ∀ (u : Term) (p : Pairing),
      pairWith (π • x) (ρ • u) (p.map (Prod.map (π • ·) (ρ • ·))) =
        (pairWith x u p).map (List.map (Prod.map (π • ·) (ρ • ·)))) :
      pairAll (xs.map (π • ·)) (ys.map (ρ • ·)) (p.map (Prod.map (π • ·) (ρ • ·))) =
        (pairAll xs ys p).map (List.map (Prod.map (π • ·) (ρ • ·))) := by
    induction xs generalizing ys p with
    | nil => cases ys <;> rfl
    | cons x xs ihxs =>
      cases ys with
      | nil => rfl
      | cons y ys =>
        simp only [List.map_cons, pairAll, ih x (.head _) y p]
        cases pairWith x y p with
        | none => rfl
        | some q => exact ihxs ys q fun z hz ↦ ih z (.tail _ hz)
  induction t using Term.induction generalizing u p with
  | var v =>
    cases u with
    | var w => exact Pairing.pair_smul π ρ p v w
    | _ => simp [pairWith]
  | num n =>
    cases u with
    | num m =>
      simp only [smul_num, pairWith]
      split <;> rfl
    | _ => simp [pairWith]
  | app g xs ih =>
    cases u with
    | app c ys =>
      simp only [smul_app, pairWith]
      split
      · exact hall xs ys p ih
      · rfl
    | _ => simp [pairWith]

/-- Whether terms are variants does not depend on the numbers of their variables. -/
theorem isVariant_smul_smul (t u : Term) : (π • t).isVariant (ρ • u) = t.isVariant u := by
  have h := pairWith_smul π ρ t u []
  rw [List.map_nil] at h
  rw [isVariant, isVariant, h, Option.isSome_map]

theorem isVariant_smul (t u : Term) : (π • t).isVariant (π • u) = t.isVariant u :=
  isVariant_smul_smul π π t u

theorem isVariant_smul_left (t u : Term) : (π • t).isVariant u = t.isVariant u := by
  have h := isVariant_smul_smul π 1 t u
  rwa [one_smul] at h

theorem isVariant_smul_right (t u : Term) : t.isVariant (π • u) = t.isVariant u := by
  have h := isVariant_smul_smul 1 π t u
  rwa [one_smul] at h

end Term

end Argumentation
