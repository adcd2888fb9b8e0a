import Argumentation.Argument.Attack
import Argumentation.Proofs.Term.Variant
import Argumentation.Term.Construction

namespace Argumentation.Term

variable {f : String} {a b t : Term} {xs ys : List Term} {cs : List Char}

theorem toList_negateFunctor_of_marked (h : f.toList = '~' :: cs) :
    (negateFunctor f).toList = cs := by
  simp only [negateFunctor, h, String.toList_ofList]

theorem toList_negateFunctor_of_unmarked (h : f.toList.head? ≠ some '~') :
    (negateFunctor f).toList = '~' :: f.toList := by
  unfold negateFunctor
  split
  · rename_i cs hcs
    exact absurd (congrArg List.head? hcs) h
  · exact String.toList_ofList

theorem negateFunctor_negateFunctor_iff :
    negateFunctor (negateFunctor f) = f ↔ ¬ ['~', '~'] <+: f.toList := by
  rw [← String.toList_inj]
  by_cases h : f.toList.head? = some '~'
  · obtain ⟨cs, hcs⟩ := List.head?_eq_some_iff.mp h
    have honce := toList_negateFunctor_of_marked hcs
    by_cases h' : cs.head? = some '~'
    · -- Two marks are taken off and none is put back.
      obtain ⟨ds, rfl⟩ := List.head?_eq_some_iff.mp h'
      rw [toList_negateFunctor_of_marked honce, hcs]
      refine iff_of_false (fun heq ↦ ?_) (not_not.mpr ⟨ds, rfl⟩)
      have hlength := congrArg List.length heq
      simp only [List.length_cons] at hlength
      omega
    · rw [toList_negateFunctor_of_unmarked (honce ▸ h'), honce, hcs]
      refine iff_of_true rfl fun hprefix ↦ h' ?_
      obtain ⟨ds, hds⟩ := (List.cons_prefix_cons.mp hprefix).2
      exact congrArg List.head? hds.symm
  · rw [toList_negateFunctor_of_marked (toList_negateFunctor_of_unmarked h)]
    refine iff_of_true rfl fun ⟨ds, hds⟩ ↦ h ?_
    exact congrArg List.head? hds.symm

/-- The constructors refuse a functor that is empty or a mark alone; no other one but two marks
has such a negation. -/
theorem negateFunctor_proper (hempty : f ≠ "") (hmark : f ≠ "~") (hmarks : f ≠ "~~") :
    negateFunctor f ≠ "" ∧ negateFunctor f ≠ "~" := by
  simp only [ne_eq, ← String.toList_inj] at hempty hmark hmarks ⊢
  by_cases h : f.toList.head? = some '~'
  · obtain ⟨cs, hcs⟩ := List.head?_eq_some_iff.mp h
    rw [toList_negateFunctor_of_marked hcs]
    rw [hcs] at hmark hmarks
    exact ⟨fun heq ↦ hmark (congrArg ('~' :: ·) heq), fun heq ↦ hmarks (congrArg ('~' :: ·) heq)⟩
  · rw [toList_negateFunctor_of_unmarked h]
    exact ⟨List.cons_ne_nil _ _, fun heq ↦ hempty (List.cons.inj heq).2⟩

def IsAccepted (t : Term) : Prop :=
  (∃ f, constant f = .ok t) ∨ ∃ f xs, compound f xs = .ok t

def IsDoublyNegated (t : Term) : Prop :=
  ∃ f xs, t = app (.name f) xs ∧ ['~', '~'] <+: f.toList

def Contradicts (a b : Term) : Prop :=
  ∃ n, b.negation? = some n ∧ a.isVariant n = true

theorem compound_eq_ok : compound f xs = .ok t ↔ (f ≠ "" ∧ f ≠ "~") ∧ t = app (.name f) xs := by
  rw [compound, ← not_or]
  split <;> simp [*, eq_comm]

theorem isAccepted_iff : t.IsAccepted ↔ ∃ f xs, (f ≠ "" ∧ f ≠ "~") ∧ t = app (.name f) xs := by
  simp only [IsAccepted, constant, compound_eq_ok]
  exact or_iff_right_of_imp fun ⟨f, h⟩ ↦ ⟨f, [], h⟩

theorem isDoublyNegated_app : (app (.name f) xs).IsDoublyNegated ↔ ['~', '~'] <+: f.toList := by
  simp [IsDoublyNegated]

theorem exists_of_negation?_eq_some (h : a.negation? = some t) :
    ∃ f xs, a = app (.name f) xs ∧ t = app (.name (negateFunctor f)) xs := by
  cases a with
  | var v => cases h
  | num n => cases h
  | app g xs =>
    cases g with
    | name f => exact ⟨f, xs, rfl, (Option.some.inj h).symm⟩
    | op o => cases h

theorem isVariant_app_iff {g : Symbol} : a.isVariant (app g ys) = true ↔
    ∃ xs, a = app g xs ∧ (pairAll xs ys []).isSome = true := by
  cases a with
  | app f xs =>
    by_cases hfg : f = g <;> simp [isVariant, pairWith, hfg]
  | _ => simp [isVariant, pairWith]

theorem contradicts_app : a.Contradicts (app (.name f) ys) ↔
    ∃ xs, a = app (.name (negateFunctor f)) xs ∧ (pairAll xs ys []).isSome = true := by
  simp [Contradicts, negation?, isVariant_app_iff]

theorem contradicts_iff_denies {a : Argument} : a.claim.Contradicts t ↔ a.denies t = true := by
  simp only [Contradicts, Argument.denies, Bool.and_eq_true, Option.any_eq_true]
  refine (and_iff_right_of_imp ?_).symm
  rintro ⟨n, hn, hvariant⟩
  obtain ⟨f, ys, -, rfl⟩ := exists_of_negation?_eq_some hn
  obtain ⟨xs, hclaim, -⟩ := isVariant_app_iff.mp hvariant
  rw [hclaim, isLiteral]

/-- What contradicts a literal is contradicted by it, but for literals with two marks. -/
theorem Contradicts.symm_iff (h : a.Contradicts b) : b.Contradicts a ↔ ¬ b.IsDoublyNegated := by
  obtain ⟨n, hn, hvariant⟩ := h
  obtain ⟨f, ys, rfl, -⟩ := exists_of_negation?_eq_some hn
  obtain ⟨xs, rfl, hpaired⟩ := contradicts_app.mp ⟨n, hn, hvariant⟩
  rw [contradicts_app, isDoublyNegated_app, ← negateFunctor_negateFunctor_iff]
  constructor
  · rintro ⟨zs, heq, -⟩
    exact (Symbol.name.inj (app.inj heq).1).symm
  · intro heq
    exact ⟨ys, by rw [heq], isSome_pairAll_symm hpaired⟩

/-- The negation of an accepted literal is accepted, unless its functor is nothing but two marks,
and negating again gives the literal back, unless it begins with two; apart from these, literals
contradict each other or not at all. -/
theorem negation_involutive :
    (∀ t : Term, t.IsAccepted → t.functor? ≠ some "~~" → ∃ u, t.negation? = some u ∧
      u.IsAccepted ∧ (u.negation? = some t ↔ ¬ t.IsDoublyNegated)) ∧
    (∀ a b : Term, ¬ a.IsDoublyNegated → ¬ b.IsDoublyNegated →
      (a.Contradicts b ↔ b.Contradicts a)) ∧
    ∀ a b : Term, b.IsDoublyNegated → a.Contradicts b → ¬ b.Contradicts a := by
  refine ⟨fun t ht hmarks ↦ ?_, fun a b ha hb ↦ ?_, fun a b hb hab ↦ ?_⟩
  · obtain ⟨f, xs, ⟨hempty, hmark⟩, rfl⟩ := isAccepted_iff.mp ht
    have hproper := negateFunctor_proper hempty hmark fun h ↦ hmarks (congrArg some h)
    refine ⟨_, rfl, isAccepted_iff.mpr ⟨_, xs, hproper, rfl⟩, ?_⟩
    rw [isDoublyNegated_app, ← negateFunctor_negateFunctor_iff]
    simp [negation?]
  · exact ⟨fun h ↦ h.symm_iff.mpr hb, fun h ↦ h.symm_iff.mpr ha⟩
  · exact fun hba ↦ hab.symm_iff.mp hba hb

theorem flight_contradicted :
    let x : Term := var ⟨"X", 0⟩
    let y : Term := var ⟨"Y", 1⟩
    let flies := app (.name "flies") [x]
    let grounded := app (.name "~flies") [y]
    (flies.IsAccepted ∧ flies.functor? ≠ some "~~" ∧ ∃ u, flies.negation? = some u ∧
      u.IsAccepted ∧ (u.negation? = some flies ↔ ¬ flies.IsDoublyNegated)) ∧
    (¬ grounded.IsDoublyNegated ∧ ¬ flies.IsDoublyNegated ∧ flies.Contradicts grounded) ∧
    (const "~~flies").IsDoublyNegated ∧ (const "~flies").Contradicts (const "~~flies") ∧
      ¬ (const "~~flies").Contradicts (const "~flies") := by
  intro x y flies grounded
  have haccepted : flies.IsAccepted := .inr ⟨"flies", [x], rfl⟩
  have hflies : ¬ flies.IsDoublyNegated := mt isDoublyNegated_app.mp (by decide +kernel)
  have hgrounded : ¬ grounded.IsDoublyNegated := mt isDoublyNegated_app.mp (by decide +kernel)
  have hdoubly : (const "~~flies").IsDoublyNegated :=
    isDoublyNegated_app.mpr (by decide +kernel)
  have hcontradicts : (const "~flies").Contradicts (const "~~flies") := ⟨_, rfl, by decide +kernel⟩
  refine ⟨⟨haccepted, by decide +kernel, ?_⟩, ⟨hgrounded, hflies, ?_⟩, hdoubly, hcontradicts, ?_⟩
  · exact negation_involutive.1 flies haccepted (by decide +kernel)
  · exact (negation_involutive.2.1 grounded flies hgrounded hflies).mp
      ⟨_, rfl, by decide +kernel⟩
  · exact negation_involutive.2.2 _ _ hdoubly hcontradicts

/-- Two marks are taken off and not put back. -/
theorem doublyNegated_not_restored :
    (const "~~a").IsAccepted ∧ (const "~a").IsAccepted ∧
      (const "~~a").negation? = some (const "~a") ∧
      (const "~a").negation? = some (const "a") ∧ const "a" ≠ const "~~a" ∧
      (const "~a").Contradicts (const "~~a") ∧ ¬ (const "~~a").Contradicts (const "~a") ∧
      (const "~~").IsAccepted ∧ (const "~~").negation? = some (const "~") ∧
      ¬ (const "~").IsAccepted := by
  have hrefused : ¬ (const "~").IsAccepted := by
    intro ht
    obtain ⟨f, xs, ⟨-, hmark⟩, heq⟩ := isAccepted_iff.mp ht
    exact hmark (Symbol.name.inj (app.inj heq).1).symm
  refine ⟨.inl ⟨"~~a", rfl⟩, .inl ⟨"~a", rfl⟩, rfl, rfl, ?_, ⟨_, rfl, by decide +kernel⟩, ?_,
    .inl ⟨"~~", rfl⟩, rfl, hrefused⟩
  · simp
  · rintro ⟨n, hn, hvariant⟩
    obtain rfl : const "a" = n := Option.some.inj hn
    exact absurd hvariant (by decide +kernel)

end Argumentation.Term
