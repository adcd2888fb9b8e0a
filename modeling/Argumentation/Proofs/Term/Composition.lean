import Argumentation.Proofs.Term.Binding

namespace Argumentation

def Symbol.isArith : Symbol → Bool
  | name _ => false
  | op operator => operator.isArith

namespace Term

mutual

def consistsOf (symbol : Symbol → Bool) (number : Number → Bool) : Term → Bool
  | var _ => true
  | num n => number n
  | app g xs => symbol g && allConsistOf symbol number xs

def allConsistOf (symbol : Symbol → Bool) (number : Number → Bool) : List Term → Bool
  | [] => true
  | x :: xs => consistsOf symbol number x && allConsistOf symbol number xs

end

abbrev isExact (t : Term) : Bool :=
  t.consistsOf (fun _ ↦ true) Number.isInt

/-- Whether there is no double and no arithmetic operator in a term. -/
abbrev isSymbolic (t : Term) : Bool :=
  t.consistsOf (!·.isArith) Number.isInt

variable {symbol : Symbol → Bool} {number : Number → Bool}

theorem allConsistOf_iff {xs : List Term} : allConsistOf symbol number xs = true ↔
    ∀ x ∈ xs, x.consistsOf symbol number = true := by
  induction xs with
  | nil => simp [allConsistOf]
  | cons x xs ih => simp [allConsistOf, ih]

theorem consistsOf_app {g : Symbol} {xs : List Term} :
    (app g xs).consistsOf symbol number = true ↔
      symbol g = true ∧ ∀ x ∈ xs, x.consistsOf symbol number = true := by
  rw [consistsOf, Bool.and_eq_true, allConsistOf_iff]

theorem consistsOf_mono {symbol' : Symbol → Bool} {number' : Number → Bool}
    (hs : ∀ g, symbol g = true → symbol' g = true) (hn : ∀ n, number n = true → number' n = true)
    {t : Term} (h : t.consistsOf symbol number = true) : t.consistsOf symbol' number' = true := by
  induction t using Term.induction with
  | var v => rfl
  | num n => exact hn n h
  | app g xs ih =>
    rw [consistsOf_app] at h ⊢
    exact ⟨hs g h.1, fun x hx ↦ ih x hx (h.2 x hx)⟩

theorem isExact_of_isSymbolic {t : Term} (h : t.isSymbolic = true) : t.isExact = true :=
  consistsOf_mono (fun _ _ ↦ rfl) (fun _ hn ↦ hn) h

theorem fold_of_not_isArith {g : Symbol} (hg : g.isArith = false) (xs : List Term) :
    fold g xs = app g xs := by
  unfold fold
  split
  · cases hg
  · rfl

theorem fold_eq_or (g : Symbol) (xs : List Term) :
    fold g xs = app g xs ∨ ∃ n, fold g xs = num n := by
  unfold fold
  split
  · split
    · exact .inr ⟨_, rfl⟩
    · exact .inl rfl
  · exact .inl rfl

def FoldsWithin (symbol : Symbol → Bool) (number : Number → Bool) : Prop :=
  ∀ g xs, (app g xs).consistsOf symbol number = true → (fold g xs).consistsOf symbol number = true

theorem foldsWithin_of_not_isArith (h : ∀ g, symbol g = true → g.isArith = false) :
    FoldsWithin symbol number := by
  intro g xs hxs
  rwa [fold_of_not_isArith (h g (consistsOf_app.mp hxs).1)]

theorem foldsWithin_of_forall (h : ∀ n, number n = true) : FoldsWithin symbol number := by
  intro g xs hxs
  rcases fold_eq_or g xs with hfold | ⟨n, hfold⟩
  · rwa [hfold]
  · rw [hfold]
    exact h n

theorem consistsOf_bind (hfold : FoldsWithin symbol number) {f : Variable → Term}
    (hf : ∀ v, (f v).consistsOf symbol number = true) {t : Term}
    (h : t.consistsOf symbol number = true) : (t.bind f).consistsOf symbol number = true := by
  induction t using Term.induction with
  | var v => exact hf v
  | num n => exact h
  | app g xs ih =>
    rw [consistsOf_app] at h
    rw [bind, bindAll_eq_map]
    refine hfold g _ (consistsOf_app.mpr ⟨h.1, fun y hy ↦ ?_⟩)
    obtain ⟨x, hx, rfl⟩ := List.mem_map.mp hy
    exact ih x hx (h.2 x hx)

theorem consistsOf_rename (f : Variable → Variable) (t : Term) :
    (t.rename f).consistsOf symbol number = t.consistsOf symbol number := by
  induction t using Term.induction with
  | var v => rfl
  | num n => rfl
  | app g xs ih =>
    rw [rename, renameAll_eq_map, Bool.eq_iff_iff, consistsOf_app, consistsOf_app]
    simp only [List.forall_mem_map]
    exact and_congr_right fun _ ↦ forall₂_congr fun x hx ↦ by rw [ih x hx]

end Term

end Argumentation
