import Argumentation.Proofs.Term.Composition
import Mathlib.Data.List.Basic

namespace Argumentation.Term

theorem eq_of_zip {xs ys : List Term} (hlen : xs.length = ys.length)
    (h : ∀ e ∈ xs.zip ys, e.1 = e.2) : xs = ys := by
  induction xs generalizing ys with
  | nil => exact (List.length_eq_zero_iff.mp hlen.symm).symm
  | cons x xs ih =>
    cases ys with
    | nil => cases hlen
    | cons y ys =>
      have hxy : x = y := h (x, y) (.head _)
      rw [hxy, ih (Nat.succ.inj hlen) fun e he ↦ h e (.tail _ he)]

/-- An equivalence that goes through folded applications and through the replacement of variables.
-/
structure IsCongruence (R : Term → Term → Prop) : Prop extends Equivalence R where
  fold : ∀ g {xs ys : List Term}, xs.length = ys.length → (∀ e ∈ xs.zip ys, R e.1 e.2) →
    R (fold g xs) (fold g ys)
  bind : ∀ f {t u : Term}, R t u → R (t.bind f) (u.bind f)

theorem isCongruence_eq : IsCongruence (· = ·) where
  refl := .refl
  symm := .symm
  trans := .trans
  fold g xs ys hlen h := by rw [eq_of_zip hlen h]
  bind f t u h := by rw [h]

/-- The least congruence under which numbers that compare as the same agree. -/
inductive Agrees : Term → Term → Prop where
  | refl (t : Term) : Agrees t t
  | symm {t u : Term} : Agrees t u → Agrees u t
  | trans {t u r : Term} : Agrees t u → Agrees u r → Agrees t r
  | num {m n : Number} : m.same n = true → Agrees (num m) (num n)
  | app (g : Symbol) {xs ys : List Term} (hlen : xs.length = ys.length)
      (h : ∀ e ∈ xs.zip ys, Agrees e.1 e.2) : Agrees (app g xs) (app g ys)
  | fold (g : Symbol) {xs ys : List Term} (hlen : xs.length = ys.length)
      (h : ∀ e ∈ xs.zip ys, Agrees e.1 e.2) : Agrees (fold g xs) (fold g ys)

variable {t u : Term} {xs ys : List Term}

theorem zip_map_bind {R : Term → Term → Prop} {f : Variable → Term}
    (h : ∀ e ∈ xs.zip ys, R (e.1.bind f) (e.2.bind f)) :
    ∀ e ∈ (xs.map (bind f)).zip (ys.map (bind f)), R e.1 e.2 := by
  intro e he
  rw [List.zip_map, List.mem_map] at he
  obtain ⟨e, he, rfl⟩ := he
  exact h e he

theorem Agrees.bind (f : Variable → Term) (h : Agrees t u) : Agrees (t.bind f) (u.bind f) := by
  induction h with
  | refl t => exact .refl _
  | symm _ ih => exact .symm ih
  | trans _ _ ih ih' => exact .trans ih ih'
  | num h => exact .num h
  | app g hlen _ ih =>
    rw [Term.bind, Term.bind, bindAll_eq_map, bindAll_eq_map]
    exact .fold g (by rw [List.length_map, List.length_map, hlen]) (zip_map_bind ih)
  | fold g hlen _ ih =>
    rw [bind_fold, bind_fold]
    exact .fold g (by rw [List.length_map, List.length_map, hlen]) (zip_map_bind ih)

theorem isCongruence_agrees : IsCongruence Agrees where
  refl := .refl
  symm := .symm
  trans := .trans
  fold g _ _ := .fold g
  bind f _ _ := .bind f

theorem agrees_of_same (h : t.same u = true) : Agrees t u := by
  have hall (xs ys : List Term) (ih : ∀ x ∈ xs, ∀ y : Term, x.same y = true → Agrees x y)
      (h : sameAll xs ys = true) :
      xs.length = ys.length ∧ ∀ e ∈ xs.zip ys, Agrees e.1 e.2 := by
    induction xs generalizing ys with
    | nil =>
      cases ys with
      | nil => simp
      | cons y ys => cases h
    | cons x xs ihxs =>
      cases ys with
      | nil => cases h
      | cons y ys =>
        rw [sameAll, Bool.and_eq_true] at h
        obtain ⟨hlen, hzip⟩ := ihxs ys (fun z hz ↦ ih z (.tail _ hz)) h.2
        refine ⟨congrArg (· + 1) hlen, List.forall_mem_cons.mpr ⟨ih x (.head _) y h.1, hzip⟩⟩
  induction t using Term.induction generalizing u with
  | var v =>
    cases u with
    | var w =>
      rw [eq_of_beq h]
      exact .refl _
    | _ => cases h
  | num m =>
    cases u with
    | num n => exact .num h
    | _ => cases h
  | app g xs ih =>
    cases u with
    | app c ys =>
      rw [same, Bool.and_eq_true, beq_iff_eq] at h
      obtain ⟨rfl, hargs⟩ := h
      obtain ⟨hlen, hzip⟩ := hall xs ys (fun x hx y ↦ ih x hx) hargs
      exact .app g hlen hzip
    | _ => cases h

theorem isInt_of_compute {op : Arith} {a b n : Number} (h : op.compute a b = some n)
    (hn : n.isInt = true) : a.isInt = true ∧ b.isInt = true := by
  cases a <;> cases b <;> first | exact ⟨rfl, rfl⟩ | skip
  all_goals
    simp only [Arith.compute] at h
    split at h
    · cases h
    · cases h
      cases hn

theorem isExact_of_fold {g : Symbol} (h : (fold g xs).isExact = true) :
    ∀ x ∈ xs, x.isExact = true := by
  unfold fold at h
  split at h
  · split at h
    · rename_i op a b n hn
      obtain ⟨ha, hb⟩ := isInt_of_compute hn h
      exact List.forall_mem_cons.mpr ⟨ha, List.forall_mem_singleton.mpr hb⟩
    · exact (consistsOf_app.mp h).2
  · exact (consistsOf_app.mp h).2

theorem Agrees.eq_of_isExact (h : Agrees t u) (ht : t.isExact = true ∨ u.isExact = true) :
    t = u := by
  induction h with
  | refl t => rfl
  | symm _ ih => exact (ih ht.symm).symm
  | trans h h' ih ih' =>
    rcases ht with ht | hu
    · obtain rfl := ih (.inl ht)
      exact ih' (.inl ht)
    · obtain rfl := ih' (.inr hu)
      exact ih (.inr hu)
  | @num m n h =>
    cases m with
    | int a =>
      cases n with
      | int b => rw [eq_of_beq (a := a) (b := b) h]
      | float y => cases h
    | float x =>
      cases n with
      | int b => cases h
      | float y => rcases ht with ht | ht <;> cases ht
  | @app g xs ys hlen _ ih =>
    refine congrArg _ (eq_of_zip hlen fun e he ↦ ih e he ?_)
    have hmem := List.of_mem_zip he
    exact ht.imp (fun h ↦ (consistsOf_app.mp h).2 _ hmem.1) fun h ↦ (consistsOf_app.mp h).2 _ hmem.2
  | @fold g xs ys hlen _ ih =>
    refine congrArg _ (eq_of_zip hlen fun e he ↦ ih e he ?_)
    have hmem := List.of_mem_zip he
    exact ht.imp (fun h ↦ isExact_of_fold h _ hmem.1) fun h ↦ isExact_of_fold h _ hmem.2

theorem eq_of_same (ht : t.isExact = true) (h : t.same u = true) : t = u :=
  (agrees_of_same h).eq_of_isExact (.inl ht)

theorem same_self (h : t.isExact = true) : t.same t = true := by
  have hall (xs : List Term) (hxs : ∀ x ∈ xs, x.same x = true) : sameAll xs xs = true := by
    induction xs with
    | nil => rfl
    | cons x xs ih =>
      rw [sameAll, hxs x (.head _), ih fun y hy ↦ hxs y (.tail _ hy)]
      rfl
  induction t using Term.induction with
  | var v => exact beq_self_eq_true v
  | num n =>
    cases n with
    | int a => exact beq_self_eq_true a
    | float x => cases h
  | app g xs ih =>
    rw [same, beq_self_eq_true, hall xs fun x hx ↦ ih x hx ((consistsOf_app.mp h).2 x hx)]
    rfl

theorem same_iff (h : t.isExact = true) : t.same u = true ↔ t = u := by
  constructor
  · exact eq_of_same h
  · rintro rfl
    exact same_self h

theorem same_var_iff {v : Variable} : t.same (var v) = true ↔ t = var v := by
  cases t with
  | var w => simp [same]
  | num n => simp [same]
  | app g xs => simp [same]

end Argumentation.Term
