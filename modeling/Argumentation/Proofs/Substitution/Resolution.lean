import Argumentation.Proofs.RelatedLists
import Argumentation.Proofs.Substitution.Acyclic
import Argumentation.Proofs.Term.Congruence

namespace Argumentation

namespace Bindings

def off (b : Bindings) (path : List Variable) : Bindings :=
  path.foldr (fun v b ↦ b.without v) b

theorem lookup_off (b : Bindings) (path : List Variable) (v : Variable) :
    (b.off path).lookup v = if v ∈ path then none else b.lookup v := by
  induction path with
  | nil => simp [off]
  | cons w path ih =>
    rw [off, List.foldr_cons, ← off, lookup_without, ih]
    by_cases hv : v = w
    · rw [if_pos hv, if_pos (List.mem_cons.mpr (.inl hv))]
    · rw [if_neg hv]
      simp [hv]

end Bindings

namespace Substitution

variable {s : Substitution} {path : List Variable} {t u : Term} {n : ℕ}

/-- How a term is resolved under the variables of a path, each of which is being resolved itself. No
bound is set to the steps. -/
inductive Resolves (s : Substitution) : List Variable → Term → Term → Prop
  | again {path : List Variable} {v : Variable} : v ∈ path → Resolves s path (.var v) (.var v)
  | unbound {path : List Variable} {v : Variable} : v ∉ path → s.get? v = none →
      Resolves s path (.var v) (.var v)
  | bound {path : List Variable} {v : Variable} {t u : Term} : v ∉ path → s.get? v = some t →
      Resolves s (v :: path) t u → Resolves s path (.var v) u
  | num (path : List Variable) (n : Number) : Resolves s path (.num n) (.num n)
  | app {path : List Variable} (g : Symbol) {xs ys : List Term} : xs.length = ys.length →
      (∀ e ∈ xs.zip ys, Resolves s path e.1 e.2) → Resolves s path (.app g xs) (.fold g ys)

theorem Resolves.bind {f : Variable → Term}
    (h : ∀ v ∈ t.occurrences, s.Resolves path (.var v) (f v)) : s.Resolves path t (t.bind f) := by
  induction t using Term.induction with
  | var v => exact h v (.head _)
  | num k => exact .num path k
  | app g xs ih =>
    rw [Term.bind, Term.bindAll_eq_map]
    refine .app g (by rw [List.length_map]) fun e he ↦ ?_
    have hzip : xs.zip (xs.map (Term.bind f)) = xs.map fun x ↦ (x, x.bind f) := by
      simpa using List.zip_map' (f := id) (g := Term.bind f) (l := xs)
    rw [hzip, List.mem_map] at he
    obtain ⟨x, hx, rfl⟩ := he
    exact ih x hx fun v hv ↦ h v (Term.mem_occurrencesAll.mpr ⟨x, hx, hv⟩)

/-- Each binding that is followed is one fewer to be followed on the rest of the path. -/
theorem resolves_follow (path : List Variable) (hn : (s.bindings.off path).length ≤ n)
    (v : Variable) : s.Resolves path (.var v) (Bindings.follow n (s.bindings.off path) v) := by
  induction n generalizing path v with
  | zero =>
    have hv := s.bindings.lookup_off path v
    rw [List.eq_nil_of_length_eq_zero (Nat.le_zero.mp hn)] at hv ⊢
    rw [Bindings.follow]
    by_cases hmem : v ∈ path
    · exact .again hmem
    · rw [if_neg hmem] at hv
      exact .unbound hmem hv.symm
  | succ n ih =>
    have hv := s.bindings.lookup_off path v
    by_cases hmem : v ∈ path
    · rw [if_pos hmem] at hv
      rw [Bindings.follow_of_unbound hv]
      exact .again hmem
    · rw [if_neg hmem] at hv
      cases ht : s.bindings.lookup v with
      | none =>
        rw [Bindings.follow_of_unbound (hv.trans ht)]
        exact .unbound hmem ht
      | some t =>
        have hlt := Bindings.length_without_lt (hv.trans ht)
        rw [Bindings.follow, hv.trans ht]
        refine .bound hmem ht (.bind fun w _ ↦ ?_)
        refine ih (v :: path) ?_ w
        rw [Bindings.off, List.foldr_cons, ← Bindings.off]
        omega

theorem Resolves.unique {u' : Term} (h : s.Resolves path t u) (h' : s.Resolves path t u') :
    u' = u := by
  induction h generalizing u' with
  | again hmem =>
    cases h' with
    | again _ => rfl
    | unbound _ _ => rfl
    | bound hnot _ _ => exact absurd hmem hnot
  | unbound hnot hv =>
    cases h' with
    | again _ => rfl
    | unbound _ _ => rfl
    | bound _ ht _ =>
      rw [hv] at ht
      cases ht
  | bound hnot ht _ ih =>
    cases h' with
    | again hmem => exact absurd hmem hnot
    | unbound _ hv =>
      rw [ht] at hv
      cases hv
    | bound _ ht' h' =>
      rw [ht] at ht'
      cases ht'
      exact ih h'
  | num _ _ =>
    cases h'
    rfl
  | @app path g xs ys hlen _ ih =>
    cases h' with
    | @app _ _ _ ys' hlen' h' =>
      have hargs : List.Forall₂ (fun x y ↦ ∀ u', s.Resolves path x u' → u' = y) xs ys :=
        List.forall₂_iff_zip.mpr ⟨hlen, fun he u' h ↦ ih (_, _) he h⟩
      have hargs' : List.Forall₂ (s.Resolves path) xs ys' :=
        List.forall₂_iff_zip.mpr ⟨hlen', fun he ↦ h' (_, _) he⟩
      have heq : List.Forall₂ (· = ·) ys' ys :=
        forall₂_of_common hargs'.flip hargs.flip fun _ _ _ hx hy ↦ hy _ hx
      rw [List.forall₂_eq_eq_eq] at heq
      rw [heq]

/-- What a variable on the path leads to and is left as it is lies on a cycle. -/
theorem Resolves.left (h : s.Resolves path t u)
    (hpath : ∀ v ∈ path, ∀ w ∈ t.occurrences, Relation.TransGen s.Mentions v w) :
    ∀ v ∈ u.occurrences, s.get? v = none ∨ Relation.TransGen s.Mentions v v := by
  induction h with
  | again hmem =>
    intro v hv
    rw [List.mem_singleton.mp hv]
    exact .inr (hpath _ hmem _ (.head _))
  | unbound _ hunbound =>
    intro v hv
    rw [List.mem_singleton.mp hv]
    exact .inl hunbound
  | bound _ ht _ ih =>
    -- The variable that joins the path leads to all of its value, and so does the path before it.
    refine ih (List.forall_mem_cons.mpr ⟨fun w hw ↦ .single ⟨_, ht, hw⟩, fun p hp w hw ↦ ?_⟩)
    exact .tail (hpath p hp _ (.head _)) ⟨_, ht, hw⟩
  | num _ _ =>
    intro v hv
    cases hv
  | @app path g xs ys hlen _ ih =>
    intro v hv
    rw [Term.occurrences_fold, Term.mem_occurrencesAll] at hv
    obtain ⟨y, hy, hv⟩ := hv
    obtain ⟨i, hi, rfl⟩ := List.getElem_of_mem hy
    have he : (xs[i], ys[i]) ∈ xs.zip ys := by
      rw [← List.getElem_zip (h := by rw [List.length_zip]; omega)]
      exact List.getElem_mem _
    refine ih _ he (fun p hp w hw ↦ hpath p hp w ?_) v hv
    exact Term.mem_occurrencesAll.mpr ⟨xs[i], List.getElem_mem _, hw⟩

theorem resolves_iff : s.Resolves [] t u ↔ u = s.apply t := by
  have happly : s.Resolves [] t (s.apply t) :=
    .bind fun v _ ↦ resolves_follow [] (Nat.le_refl _) v
  constructor
  · intro h
    exact happly.unique h
  · intro h
    rw [h]
    exact happly

/-- Application ends under every substitution, with nothing but unbound variables and variables on
cycles left; under an acyclic one it is done for good. -/
theorem apply_resolves (s : Substitution) (t : Term) :
    (∀ u, s.Resolves [] t u ↔ u = s.apply t) ∧
      (∀ v ∈ (s.apply t).occurrences, s.get? v = none ∨ Relation.TransGen s.Mentions v v) ∧
      (s.Acyclic → s.apply (s.apply t) = s.apply t) := by
  refine ⟨fun _ ↦ resolves_iff, (resolves_iff.mpr rfl).left fun v hv ↦ ?_, fun hs ↦ apply_idem hs t⟩
  cases hv

def chained : Substitution :=
  (empty.bound ⟨"Y", 2⟩ (.num (.int 3))).bound ⟨"X", 1⟩
    (.app (.op (.arith .add)) [.var ⟨"Y", 2⟩, .num (.int 4)])

def looped : Substitution :=
  (empty.bound ⟨"Y", 2⟩ (.var ⟨"X", 1⟩)).bound ⟨"X", 1⟩ (.app (.name "f") [.var ⟨"Y", 2⟩])

theorem chained_looped_resolves :
    (chained.Resolves [] (.app (.name "g") [.var ⟨"X", 1⟩, .var ⟨"Z", 3⟩])
        (.app (.name "g") [.num (.int 7), .var ⟨"Z", 3⟩]) ∧
      chained.apply (.app (.name "g") [.num (.int 7), .var ⟨"Z", 3⟩]) =
        .app (.name "g") [.num (.int 7), .var ⟨"Z", 3⟩]) ∧
    looped.Resolves [] (.var ⟨"X", 1⟩) (.app (.name "f") [.var ⟨"X", 1⟩]) ∧
      (looped.get? ⟨"X", 1⟩ = none ∨ Relation.TransGen looped.Mentions ⟨"X", 1⟩ ⟨"X", 1⟩) := by
  have hchained : chained.Acyclic :=
    (acyclic_empty.bound (by decide) (by decide +kernel)).bound (by decide) (by decide +kernel)
  have happly : chained.apply (.app (.name "g") [.var ⟨"X", 1⟩, .var ⟨"Z", 3⟩]) =
      .app (.name "g") [.num (.int 7), .var ⟨"Z", 3⟩] := rfl
  have hlooped : looped.apply (.var ⟨"X", 1⟩) = .app (.name "f") [.var ⟨"X", 1⟩] := rfl
  obtain ⟨hresolves, -, hagain⟩ :=
    apply_resolves chained (.app (.name "g") [.var ⟨"X", 1⟩, .var ⟨"Z", 3⟩])
  obtain ⟨hresolves', hleft, -⟩ := apply_resolves looped (.var ⟨"X", 1⟩)
  have htwice := hagain hchained
  rw [happly] at htwice
  rw [hlooped] at hleft
  refine ⟨⟨(hresolves _).mpr happly.symm, htwice⟩, (hresolves' _).mpr hlooped.symm, hleft _ ?_⟩
  exact .head _

end Substitution

end Argumentation
