import Argumentation.Rule.Basic
import Argumentation.Substitution.Unify

namespace Argumentation

namespace Term

mutual

def isPlain : Term → Bool
  | var _ => false
  | num (.int _) => true
  | num (.float _) => false
  | app (.name _) xs => arePlain xs
  | app (.op _) _ => false

def arePlain : List Term → Bool
  | [] => true
  | x :: xs => isPlain x && arePlain xs

end

theorem arePlain_iff {xs : List Term} : arePlain xs = true ↔ ∀ x ∈ xs, x.isPlain = true := by
  induction xs with
  | nil => simp [arePlain]
  | cons x xs ih => simp [arePlain, ih]

mutual

theorem bind_of_plain (f : Variable → Term) : ∀ t : Term, t.isPlain = true → t.bind f = t
  | num _, _ => rfl
  | app (.name g) xs, h => by
    rw [bind, bindAll_of_plain f xs h]
    rfl

theorem bindAll_of_plain (f : Variable → Term) :
    ∀ xs : List Term, arePlain xs = true → bindAll f xs = xs
  | [], _ => rfl
  | x :: xs, h => by
    simp only [arePlain, Bool.and_eq_true] at h
    rw [bindAll, bind_of_plain f x h.1, bindAll_of_plain f xs h.2]

end

mutual

theorem rename_of_plain (f : Variable → Variable) : ∀ t : Term, t.isPlain = true → t.rename f = t
  | num _, _ => rfl
  | app (.name g) xs, h => by rw [rename, renameAll_of_plain f xs h]

theorem renameAll_of_plain (f : Variable → Variable) :
    ∀ xs : List Term, arePlain xs = true → renameAll f xs = xs
  | [], _ => rfl
  | x :: xs, h => by
    simp only [arePlain, Bool.and_eq_true] at h
    rw [renameAll, rename_of_plain f x h.1, renameAll_of_plain f xs h.2]

end

mutual

theorem occurrences_of_plain : ∀ t : Term, t.isPlain = true → t.occurrences = []
  | num _, _ => rfl
  | app (.name g) xs, h => by rw [occurrences, occurrencesAll_of_plain xs h]

theorem occurrencesAll_of_plain : ∀ xs : List Term, arePlain xs = true → occurrencesAll xs = []
  | [], _ => rfl
  | x :: xs, h => by
    simp only [arePlain, Bool.and_eq_true] at h
    rw [occurrencesAll, occurrences_of_plain x h.1, occurrencesAll_of_plain xs h.2]
    rfl

end

theorem fold_occurrences {g : Symbol} {xs : List Term} (h : occurrencesAll xs = []) :
    (fold g xs).occurrences = [] := by
  unfold fold
  split
  · split <;> rfl
  · exact h

mutual

theorem bind_occurrences (f : Variable → Term) :
    ∀ t : Term, t.occurrences = [] → (t.bind f).occurrences = []
  | num _, _ => rfl
  | app _ xs, h => fold_occurrences (bindAll_occurrences f xs h)

theorem bindAll_occurrences (f : Variable → Term) :
    ∀ xs : List Term, occurrencesAll xs = [] → occurrencesAll (bindAll f xs) = []
  | [], _ => rfl
  | x :: xs, h => by
    simp only [occurrencesAll, List.append_eq_nil_iff] at h
    rw [bindAll, occurrencesAll, bind_occurrences f x h.1, bindAll_occurrences f xs h.2]
    rfl

end

theorem negation?_isPlain {t u : Term} (ht : t.isPlain = true) (hu : t.negation? = some u) :
    u.isPlain = true ∧ u.isLiteral = true := by
  cases t with
  | app g xs =>
    cases g with
    | name f =>
      cases hu
      exact ⟨ht, rfl⟩
    | op o => cases ht
  | _ => cases hu

theorem int_same_iff {m : Int64} {n : Number} :
    (Number.int m).same n = true ↔ Number.int m = n := by
  cases n <;> simp [Number.same]

mutual

theorem same_iff_of_plain : ∀ t u : Term, t.isPlain = true → (t.same u = true ↔ t = u)
  | num (.int m), num n, _ => by simp only [same, int_same_iff, num.injEq]
  | app (.name f) xs, app g ys, h => by
    simp only [same, Bool.and_eq_true, beq_iff_eq, app.injEq, sameAll_iff_of_plain xs ys h]
  | num (.int _), var _, _ => by simp [same]
  | num (.int _), app _ _, _ => by simp [same]
  | app (.name _) _, var _, _ => by simp [same]
  | app (.name _) _, num _, _ => by simp [same]

theorem sameAll_iff_of_plain :
    ∀ xs ys : List Term, arePlain xs = true → (sameAll xs ys = true ↔ xs = ys)
  | [], [], _ => by simp [sameAll]
  | [], _ :: _, _ => by simp [sameAll]
  | _ :: _, [], _ => by simp [sameAll]
  | x :: xs, y :: ys, h => by
    simp only [arePlain, Bool.and_eq_true] at h
    simp only [sameAll, Bool.and_eq_true, List.cons.injEq, same_iff_of_plain x y h.1,
      sameAll_iff_of_plain xs ys h.2]

end

mutual

theorem pairWith_of_plain :
    ∀ (t u : Term) (p : Pairing), t.isPlain = true → (pairWith t u p = some p ∧ t = u ∨
      pairWith t u p = none ∧ t ≠ u)
  | num (.int m), num n, p, _ => by
    by_cases h : Number.int m = n
    · exact .inl ⟨by rw [pairWith, if_pos (int_same_iff.mpr h)], congrArg num h⟩
    · exact .inr ⟨by rw [pairWith, if_neg (mt int_same_iff.mp h)], fun he ↦ h (num.inj he)⟩
  | app (.name f) xs, app g ys, p, h => by
    by_cases hg : Symbol.name f = g
    · subst hg
      rw [pairWith, if_pos rfl]
      rcases pairAll_of_plain xs ys p h with ⟨hp, he⟩ | ⟨hp, hne⟩
      · exact .inl ⟨hp, congrArg _ he⟩
      · exact .inr ⟨hp, fun he ↦ hne (app.inj he).2⟩
    · exact .inr ⟨by rw [pairWith, if_neg hg], fun he ↦ hg (app.inj he).1⟩
  | num (.int _), var _, _, _ => .inr ⟨by simp [pairWith], by simp⟩
  | num (.int _), app _ _, _, _ => .inr ⟨by simp [pairWith], by simp⟩
  | app (.name _) _, var _, _, _ => .inr ⟨by simp [pairWith], by simp⟩
  | app (.name _) _, num _, _, _ => .inr ⟨by simp [pairWith], by simp⟩

theorem pairAll_of_plain :
    ∀ (xs ys : List Term) (p : Pairing), arePlain xs = true → (pairAll xs ys p = some p ∧ xs = ys ∨
      pairAll xs ys p = none ∧ xs ≠ ys)
  | [], [], _, _ => .inl ⟨rfl, rfl⟩
  | [], _ :: _, _, _ => .inr ⟨rfl, by simp⟩
  | _ :: _, [], _, _ => .inr ⟨rfl, by simp⟩
  | x :: xs, y :: ys, p, h => by
    simp only [arePlain, Bool.and_eq_true] at h
    rw [pairAll]
    rcases pairWith_of_plain x y p h.1 with ⟨hp, rfl⟩ | ⟨hp, hne⟩
    · rw [hp]
      rcases pairAll_of_plain xs ys p h.2 with ⟨hq, rfl⟩ | ⟨hq, hne⟩
      · exact .inl ⟨hq, rfl⟩
      · exact .inr ⟨hq, fun he ↦ hne (List.cons.inj he).2⟩
    · rw [hp]
      exact .inr ⟨rfl, fun he ↦ hne (List.cons.inj he).1⟩

end

theorem isVariant_iff_of_plain {t u : Term} (h : t.isPlain = true) :
    t.isVariant u = true ↔ t = u := by
  unfold isVariant
  rcases pairWith_of_plain t u [] h with ⟨hp, he⟩ | ⟨hp, hne⟩
  · rw [hp]
    exact iff_of_true rfl he
  · rw [hp]
    exact iff_of_false (by simp) hne

end Term

namespace Substitution

theorem apply_of_plain (s : Substitution) {t : Term} (h : t.isPlain = true) : s.apply t = t :=
  Term.bind_of_plain _ t h

theorem apply_occurrences (s : Substitution) {t : Term} (h : t.occurrences = []) :
    (s.apply t).occurrences = [] :=
  Term.bind_occurrences _ t h

theorem apply_isLiteral (s : Substitution) {t : Term} (h : t.isLiteral = true) :
    (s.apply t).isLiteral = true := by
  cases t with
  | app g xs =>
    cases g with
    | name g => rfl
    | op o => cases h
  | _ => cases h

theorem walk_of_ground (s : Substitution) {t : Term} (h : t.occurrences = []) : s.walk t = t := by
  cases t with
  | var v => cases h
  | _ => rfl

theorem unifyWithin_inconsistent {s : Substitution} (hs : s.isConsistent = false) (n : Nat)
    (l r : Term) : (unifyWithin n l r s).isConsistent = false := by
  cases n with
  | zero => simp [unifyWithin, clash, isConsistent]
  | succ n => simp [unifyWithin, hs]

theorem foldl_unifyWithin_inconsistent (n : Nat) (ps : List (Term × Term)) {s : Substitution}
    (hs : s.isConsistent = false) :
    (ps.foldl (fun u (x, y) ↦ unifyWithin n x y u) s).isConsistent = false := by
  induction ps generalizing s with
  | nil => exact hs
  | cons p ps ih => exact ih (unifyWithin_inconsistent hs n p.1 p.2)

mutual

theorem unifyWithin_of_plain :
    ∀ (l r : Term) (n : Nat) (s : Substitution), l.isPlain = true → r.occurrences = [] →
      l.size ≤ n → s.isConsistent = true →
      (l = r ∧ unifyWithin n l r s = s ∨ l ≠ r ∧ (unifyWithin n l r s).isConsistent = false)
  | l, r, 0, s, hl, hr, hn, hs => by cases l <;> simp [Term.size] at hn
  | .num (.int m), r, n + 1, s, hl, hr, hn, hs => by
    rw [unifyWithin, walk_of_ground s (Term.occurrences_of_plain _ hl), walk_of_ground s hr]
    simp only [hs, Bool.not_true, Bool.false_eq_true, if_false]
    cases r with
    | var v => cases hr
    | num k =>
      by_cases h : Number.int m = k
      · exact .inl ⟨congrArg _ h, by simp only [Term.int_same_iff.mpr h, if_true]⟩
      · refine .inr ⟨fun he ↦ h (Term.num.inj he), ?_⟩
        simp only [mt Term.int_same_iff.mp h, Bool.false_eq_true, if_false, clash, isConsistent,
          Bool.not_true, Bool.and_false]
    | app g ys => exact .inr ⟨by simp, by simp [clash, isConsistent]⟩
  | .app (.name f) xs, r, n + 1, s, hl, hr, hn, hs => by
    rw [unifyWithin, walk_of_ground s (Term.occurrences_of_plain _ hl), walk_of_ground s hr]
    simp only [hs, Bool.not_true, Bool.false_eq_true, if_false]
    cases r with
    | var v => cases hr
    | num k => exact .inr ⟨by simp, by simp [clash, isConsistent]⟩
    | app g ys =>
      -- The arguments are smaller than the term, so one level less is enough for them.
      simp only [Term.size] at hn
      by_cases hg : Symbol.name f = g ∧ xs.length = ys.length
      · simp only [if_pos hg]
        rcases unifyAllWithin_of_plain xs ys n s hl hr hg.2 (by omega) hs with ⟨he, hu⟩ | ⟨hne, hu⟩
        · exact .inl ⟨by rw [hg.1, he], hu⟩
        · exact .inr ⟨fun he ↦ hne (Term.app.inj he).2, hu⟩
      · refine .inr ⟨?_, by simp [if_neg hg, clash, isConsistent]⟩
        rintro he
        obtain ⟨rfl, rfl⟩ := Term.app.inj he
        exact hg ⟨rfl, rfl⟩

theorem unifyAllWithin_of_plain :
    ∀ (xs ys : List Term) (n : Nat) (s : Substitution), Term.arePlain xs = true →
      Term.occurrencesAll ys = [] → xs.length = ys.length → Term.sizeAll xs ≤ n →
      s.isConsistent = true →
      (xs = ys ∧ (xs.zip ys).foldl (fun u (x, y) ↦ unifyWithin n x y u) s = s ∨
        xs ≠ ys ∧
          ((xs.zip ys).foldl (fun u (x, y) ↦ unifyWithin n x y u) s).isConsistent = false)
  | [], [], _, _, _, _, _, _, _ => .inl ⟨rfl, rfl⟩
  | x :: xs, y :: ys, n, s, hx, hy, hlen, hn, hs => by
    simp only [Term.arePlain, Bool.and_eq_true] at hx
    simp only [Term.occurrencesAll, List.append_eq_nil_iff] at hy
    simp only [List.length_cons, Nat.add_right_cancel_iff] at hlen
    simp only [Term.sizeAll] at hn
    simp only [List.zip_cons_cons, List.foldl_cons]
    rcases unifyWithin_of_plain x y n s hx.1 hy.1 (by omega) hs with ⟨rfl, hu⟩ | ⟨hne, hu⟩
    · rw [hu]
      rcases unifyAllWithin_of_plain xs ys n s hx.2 hy.2 hlen (by omega) hs with
        ⟨rfl, hv⟩ | ⟨hne, hv⟩
      · exact .inl ⟨rfl, hv⟩
      · exact .inr ⟨fun he ↦ hne (List.cons.inj he).2, hv⟩
    · exact .inr ⟨fun he ↦ hne (List.cons.inj he).1, foldl_unifyWithin_inconsistent n _ hu⟩

end

/-- A plain term and a term without variables unify only if they are equal, and then nothing is
bound. -/
theorem unify_of_plain {l r : Term} (s : Substitution) (hl : l.isPlain = true)
    (hr : r.occurrences = []) (hs : s.isConsistent = true) :
    l = r ∧ s.unify l r = s ∨ l ≠ r ∧ (s.unify l r).isConsistent = false := by
  refine unifyWithin_of_plain l r _ s hl hr ?_ hs
  have hle : ∀ n : Nat, 0 < n → n ≤ n * n * n := by
    intro n hn
    calc n ≤ n * n := Nat.le_mul_of_pos_right n hn
      _ ≤ n * n * n := Nat.le_mul_of_pos_right _ hn
  have h := hle (l.size + r.size + s.bindings.size + 2) (by omega)
  simp only [unifyDepth]
  omega

end Substitution

namespace Rule

def isPlain (r : Rule) : Bool :=
  r.consequent.isPlain && Term.arePlain r.antecedent && Term.arePlain r.name.toList

theorem isPlain_iff {r : Rule} :
    r.isPlain = true ↔ r.consequent.isPlain = true ∧ Term.arePlain r.antecedent = true ∧
      ∀ n, r.name = some n → n.isPlain = true := by
  simp only [isPlain, Bool.and_eq_true, and_assoc, @Term.arePlain_iff r.name.toList,
    Option.mem_toList]

theorem renameApart_of_plain {r : Rule} (h : r.isPlain = true) (base : Nat) :
    r.renameApart base = r := by
  obtain ⟨hc, ha, hn⟩ := isPlain_iff.mp h
  have hname (f : Variable → Variable) : r.name.map (Term.rename f) = r.name := by
    cases hr : r.name with
    | none => rfl
    | some n => simp only [Option.map_some, Term.rename_of_plain f n (hn n hr)]
  simp only [renameApart, rename, Term.rename_of_plain _ _ hc, Term.renameAll_of_plain _ _ ha,
    hname]

end Rule

end Argumentation
