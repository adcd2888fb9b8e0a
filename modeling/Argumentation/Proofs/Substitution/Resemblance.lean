import Argumentation.Proofs.Substitution.Completeness
import Argumentation.Proofs.Term.Variant

namespace Argumentation

namespace Number

def Alike (m n : Number) : Prop :=
  m = n ∨ m.same n = true

theorem alike_equivalence : Equivalence Alike where
  refl _ := .inl rfl
  symm := by
    rintro m n (rfl | h)
    · exact .inl rfl
    · exact .inr (same_symm h)
  trans := by
    rintro m n k (rfl | h) (rfl | h')
    · exact .inl rfl
    · exact .inr h'
    · exact .inr h
    · exact .inr (same_trans h h')

def isDefinite (n : Number) : Bool :=
  n.same n

theorem isDefinite_of_same {m n : Number} (h : m.same n = true) : m.isDefinite = true :=
  same_trans h (same_symm h)

theorem same_of_alike {m n : Number} (hm : m.isDefinite = true) (h : m.Alike n) :
    m.same n = true := by
  rcases h with rfl | h
  · exact hm
  · exact h

end Number

namespace Term

abbrev isDefinite (t : Term) : Bool :=
  t.consistsOf (fun _ ↦ true) Number.isDefinite

variable {t u : Term}

theorem unifies_of_alike {f : Variable → Term} (ht : t.isDefinite = true)
    (hu : u.isDefinite = true) (h : (t.instantiate f).Alike Number.Alike (u.instantiate f)) :
    t.unifies u = true :=
  (Substitution.solved_empty.unify Number.alike_equivalence
    (fun hm _ ↦ Number.same_of_alike hm) ht hu h).consistent

def Resembles (t u : Term) : Prop :=
  t.Turns (fun _ _ ↦ True) u

theorem Resembles.symm (h : t.Resembles u) : u.Resembles t :=
  Turns.symm h

theorem Resembles.isDefinite (h : t.Resembles u) : t.isDefinite = true := by
  induction t using Term.induction generalizing u with
  | var v => rfl
  | num m =>
    cases h with
    | num h => exact Number.isDefinite_of_same h
  | app g xs ih =>
    cases h with
    | app g h =>
      refine consistsOf_app.mpr ⟨rfl, ?_⟩
      induction h with
      | nil => simp
      | cons hx _ ihs =>
        exact List.forall_mem_cons.mpr ⟨ih _ (.head _) hx, ihs fun x hx ↦ ih x (.tail _ hx)⟩

theorem Turns.alike {R : Variable → Variable → Prop} {f f' : Variable → Term}
    (hR : ∀ v w, R v w → (f v).Alike Number.Alike (f' w)) (h : t.Turns R u) :
    (t.instantiate f).Alike Number.Alike (u.instantiate f') := by
  induction t using Term.induction generalizing u with
  | var v =>
    cases h with
    | var h => exact hR _ _ h
  | num m =>
    cases h with
    | num h => exact .num (.inr h)
  | app g xs ih =>
    cases h with
    | app g h =>
      rw [instantiate, instantiate, instantiateAll_eq_map, instantiateAll_eq_map]
      refine .app g ?_
      rw [List.forall₂_map_left_iff, List.forall₂_map_right_iff]
      exact forall₂_imp h ih

theorem unifies_of_resembles (h : t.Resembles u) : t.unifies u = true :=
  unifies_of_alike h.isDefinite h.symm.isDefinite
    (Turns.alike (f := fun _ ↦ .const "c") (fun _ _ _ ↦ .refl Number.alike_equivalence _) h)

def Overlaps (t u : Term) : Prop :=
  t.unifies u = true ∧ u.unifies t = true

theorem Overlaps.symm (h : t.Overlaps u) : u.Overlaps t :=
  ⟨h.2, h.1⟩

theorem Resembles.overlaps (h : t.Resembles u) : t.Overlaps u :=
  ⟨unifies_of_resembles h, unifies_of_resembles h.symm⟩

end Term

theorem Rule.resembles_of_isVariant {r s : Rule} (h : r.isVariant s = true) :
    r.consequent.Resembles s.consequent := by
  obtain ⟨R, -, hturns⟩ := isVariant_iff.mp h
  exact (List.forall₂_cons.mp hturns).1.mono fun _ _ _ ↦ trivial

end Argumentation
