import Argumentation.Proofs.Term.Binding

namespace Argumentation

namespace Term

mutual

def instantiate (f : Variable → Term) : Term → Term
  | var v => f v
  | num n => num n
  | app g xs => app g (instantiateAll f xs)

def instantiateAll (f : Variable → Term) : List Term → List Term
  | [] => []
  | x :: xs => instantiate f x :: instantiateAll f xs

end

variable {f f' : Variable → Term} {t u r : Term} {xs ys : List Term}

theorem instantiateAll_eq_map (f : Variable → Term) (xs : List Term) :
    instantiateAll f xs = xs.map (instantiate f) := by
  induction xs with
  | nil => rfl
  | cons x xs ih => rw [instantiateAll, ih, List.map_cons]

theorem instantiate_congr (h : ∀ v ∈ t.occurrences, f v = f' v) :
    t.instantiate f = t.instantiate f' := by
  induction t using Term.induction with
  | var v => exact h v (.head _)
  | num n => rfl
  | app g xs ih =>
    rw [instantiate, instantiate, instantiateAll_eq_map, instantiateAll_eq_map]
    refine congrArg _ (List.map_congr_left fun x hx ↦ ih x hx fun v hv ↦ h v ?_)
    exact mem_occurrencesAll.mpr ⟨x, hx, hv⟩

theorem instantiate_var (t : Term) : t.instantiate var = t := by
  induction t using Term.induction with
  | var v => rfl
  | num n => rfl
  | app g xs ih =>
    rw [instantiate, instantiateAll_eq_map, List.map_congr_left (g := id) ih, List.map_id]

theorem instantiate_of_ground (h : t.occurrences = []) (f : Variable → Term) :
    t.instantiate f = t := by
  refine (instantiate_congr fun v hv ↦ ?_).trans t.instantiate_var
  rw [h] at hv
  cases hv

theorem occurrences_of_argument {g : Symbol} {x : Term} (h : (app g xs).occurrences = [])
    (hx : x ∈ xs) : x.occurrences = [] :=
  List.eq_nil_iff_forall_not_mem.mpr fun v hv ↦
    List.eq_nil_iff_forall_not_mem.mp h v (mem_occurrencesAll.mpr ⟨x, hx, hv⟩)

theorem size_image_le {v : Variable} (hv : v ∈ t.occurrences) (f : Variable → Term) :
    (f v).size ≤ (t.instantiate f).size := by
  induction t using Term.induction with
  | var w =>
    rw [List.mem_singleton.mp hv]
    exact Nat.le_refl _
  | num n => cases hv
  | app g xs ih =>
    obtain ⟨x, hx, hv⟩ := mem_occurrencesAll.mp hv
    have hle := size_le_sizeAll (List.mem_map_of_mem (f := instantiate f) hx)
    rw [instantiate, size, instantiateAll_eq_map]
    exact Nat.le_trans (ih x hx hv) (Nat.le_succ_of_le hle)

theorem size_image_lt {g : Symbol} {v : Variable} (hv : v ∈ (app g xs).occurrences)
    (f : Variable → Term) : (f v).size < ((app g xs).instantiate f).size := by
  obtain ⟨x, hx, hv⟩ := mem_occurrencesAll.mp hv
  have hle := size_le_sizeAll (List.mem_map_of_mem (f := instantiate f) hx)
  rw [instantiate, size, instantiateAll_eq_map]
  exact Nat.lt_succ_of_le (Nat.le_trans (size_image_le hv f) hle)

/-- The terms are the same but for related numbers. -/
inductive Alike (N : Number → Number → Prop) : Term → Term → Prop where
  | var (v : Variable) : Alike N (var v) (var v)
  | num {m n : Number} (h : N m n) : Alike N (num m) (num n)
  | app (g : Symbol) {xs ys : List Term} (h : List.Forall₂ (Alike N) xs ys) :
    Alike N (app g xs) (app g ys)

variable {N : Number → Number → Prop}

theorem Alike.refl (hN : Equivalence N) (t : Term) : t.Alike N t := by
  induction t using Term.induction with
  | var v => exact .var v
  | num n => exact .num (hN.refl n)
  | app g xs ih => exact .app g (List.forall₂_same.mpr ih)

theorem Alike.symm (hN : Equivalence N) (h : t.Alike N u) : u.Alike N t := by
  induction t using Term.induction generalizing u with
  | var v =>
    cases h
    exact .var v
  | num n =>
    cases h with
    | num h => exact .num (hN.symm h)
  | app g xs ih =>
    cases h with
    | app g h =>
      have hback : List.Forall₂ (fun x (y : Term) ↦ y.Alike N x) xs _ := forall₂_imp h ih
      exact .app g hback.flip

theorem Alike.trans (hN : Equivalence N) (h : t.Alike N u) (h' : u.Alike N r) : t.Alike N r := by
  induction t using Term.induction generalizing u r with
  | var v =>
    cases h
    exact h'
  | num n =>
    cases h with
    | num h =>
      cases h' with
      | num h' => exact .num (hN.trans h h')
  | app g xs ih =>
    cases h with
    | app g h =>
      cases h' with
      | app g h' => exact .app g (forall₂_trans h h' fun x hx _ _ ↦ ih x hx)

theorem Alike.size (h : t.Alike N u) : t.size = u.size := by
  induction t using Term.induction generalizing u with
  | var v =>
    cases h
    rfl
  | num n =>
    cases h
    rfl
  | app g xs ih =>
    cases h with
    | app g h =>
      rw [Term.size, Term.size]
      refine congrArg (· + 1) ?_
      induction h with
      | nil => rfl
      | cons hx _ ihs =>
        rw [sizeAll, sizeAll, ih _ (.head _) hx, ihs fun x hx ↦ ih x (.tail _ hx)]

end Term

end Argumentation
