import Argumentation.Proofs.Substitution.Completeness

namespace Argumentation

namespace Term

variable {f g : Variable → Term} {t u : Term}

theorem instantiate_instantiate (f g : Variable → Term) (t : Term) :
    (t.instantiate f).instantiate g = t.instantiate fun v ↦ (f v).instantiate g := by
  induction t using Term.induction with
  | var v => rfl
  | num n => rfl
  | app c xs ih =>
    simp only [instantiate, instantiateAll_eq_map, List.map_map]
    exact congrArg _ (List.map_congr_left ih)

theorem alike_eq_iff : t.Alike (· = ·) u ↔ t = u := by
  constructor
  · intro h
    induction t using Term.induction generalizing u with
    | var v =>
      cases h
      rfl
    | num n =>
      cases h with
      | num h => rw [h]
    | app c xs ih =>
      cases h with
      | app c h =>
        have hargs := forall₂_imp (S := (· = ·)) h fun x hx y hxy ↦ ih x hx hxy
        rw [List.forall₂_eq_eq_eq] at hargs
        rw [hargs]
  · intro h
    rw [h]
    exact .refl eq_equivalence u

end Term

namespace Substitution

variable {f g : Variable → Term} {s u : Substitution} {l r t : Term} {n : ℕ}

def SolvedBy (s : Substitution) (f : Variable → Term) : Prop :=
  ∀ v t, s.get? v = some t → f v = t.instantiate f

theorem SolvedBy.of_extends (h : u.SolvedBy f) (hs : u.Extends s) : s.SolvedBy f :=
  fun v t hv ↦ h v t (hs v t hv)

/-- Solutions are what completeness of unification is about if numbers are compared by equality. -/
theorem solved_iff : s.Solved (· = ·) Number.isInt f ↔
    s.Acyclic ∧ s.isConsistent = true ∧ s.IsExact ∧ s.SolvedBy f := by
  constructor
  · intro h
    exact ⟨h.acyclic, h.consistent, h.values, fun v t hv ↦ Term.alike_eq_iff.mp (h.holds v t hv)⟩
  · intro ⟨hacyclic, hconsistent, hexact, h⟩
    exact ⟨hacyclic, hconsistent, hexact, fun v t hv ↦ Term.alike_eq_iff.mpr (h v t hv)⟩

def image (s : Substitution) : (n : ℕ) → Variable → Term
  | 0, v => .var v
  | n + 1, v =>
    match s.get? v with
    | some t => t.instantiate (s.image n)
    | none => .var v

/-- Every variable replaced by what it stands for, with nothing folded. -/
def solution (s : Substitution) : Variable → Term :=
  s.image s.bindings.length

theorem image_of_unbound {v : Variable} (hv : s.get? v = none) : s.image n v = .var v := by
  cases n with
  | zero => rfl
  | succ n => rw [image, hv]

theorem image_of_bound {v : Variable} (hv : s.get? v = some t) :
    s.image (n + 1) v = t.instantiate (s.image n) := by
  rw [image, hv]

theorem Acyclic.image_succ (hs : s.Acyclic) {v : Variable} (hn : s.rank v ≤ n) :
    s.image (n + 1) v = s.image n v := by
  induction n generalizing v with
  | zero =>
    have hv := get?_of_rank_zero (Nat.le_zero.mp hn)
    rw [image_of_unbound hv, image_of_unbound hv]
  | succ n ih =>
    cases hv : s.get? v with
    | none => rw [image_of_unbound hv, image_of_unbound hv]
    | some t =>
      rw [image_of_bound hv, image_of_bound hv]
      refine Term.instantiate_congr fun w hw ↦ ih ?_
      have hlt := hs.rank_lt hv hw
      omega

theorem Acyclic.solvedBy_solution (hs : s.Acyclic) : s.SolvedBy s.solution := by
  intro v t hv
  have himage : s.image (s.bindings.length + 1) v = t.instantiate s.solution := image_of_bound hv
  rw [← himage]
  exact (hs.image_succ (s.rank_le_length v)).symm

theorem SolvedBy.image (h : s.SolvedBy g) (n : ℕ) (v : Variable) :
    g v = (s.image n v).instantiate g := by
  induction n generalizing v with
  | zero => rfl
  | succ n ih =>
    cases hv : s.get? v with
    | none =>
      rw [image_of_unbound hv]
      rfl
    | some t =>
      rw [image_of_bound hv, h v t hv, Term.instantiate_instantiate]
      exact Term.instantiate_congr fun w _ ↦ ih w

/-- The solutions of an acyclic substitution are the instances of its own one. -/
theorem Acyclic.solvedBy_iff (hs : s.Acyclic) :
    s.SolvedBy g ↔ ∀ v, g v = (s.solution v).instantiate g := by
  constructor
  · intro h v
    exact h.image _ v
  · intro h v t hv
    rw [h v, hs.solvedBy_solution v t hv, Term.instantiate_instantiate]
    exact Term.instantiate_congr fun w _ ↦ (h w).symm

theorem SolvedBy.identifies (h : s.SolvedBy f) :
    s.Identifies (fun _ ↦ true) Number.isInt fun x y ↦ x.instantiate f = y.instantiate f where
  refl _ := rfl
  symm hxy := hxy.symm
  trans hxy hyz := hxy.trans hyz
  same ht htw := by rw [Term.eq_of_same ht htw]
  bound hv := h _ _ hv
  app g xs ys hlen hzip := by
    rw [Term.instantiate, Term.instantiate, Term.instantiateAll_eq_map, Term.instantiateAll_eq_map]
    refine congrArg _ (Term.eq_of_zip (by rw [List.length_map, List.length_map, hlen]) ?_)
    intro e he
    rw [List.zip_map, List.mem_map] at he
    obtain ⟨e, he, rfl⟩ := he
    exact hzip e he

/-- The solutions of the result are the unifiers that solve the bindings there were before. -/
theorem solvedBy_unify_iff (hs : s.Acyclic) (hc : s.isConsistent = true) (hexact : s.IsExact)
    (hl : l.isExact = true) (hr : r.isExact = true) :
    ((s.unify l r).isConsistent = true ∧ (s.unify l r).SolvedBy f) ↔
      s.SolvedBy f ∧ l.instantiate f = r.instantiate f := by
  constructor
  · intro ⟨hu, h⟩
    have hrelated := (s.solves_unify l r).related h.identifies hexact (by simp [hl, hr]) hu
    exact ⟨h.of_extends (unify_extends hu), hrelated (l, r) (.head _)⟩
  · intro ⟨h, hlr⟩
    -- Among numbers without doubles, to compare as the same is to be equal.
    have hsame {m n : Number} (hm : m.isInt = true) (_ : n.isInt = true) (hmn : m = n) :
        m.same n = true := by
      cases m with
      | int a =>
        rw [← hmn]
        exact beq_self_eq_true a
      | float x => cases hm
    have hsolved := (solved_iff.mpr ⟨hs, hc, hexact, h⟩).unify eq_equivalence hsame hl hr
      (Term.alike_eq_iff.mpr hlr)
    obtain ⟨-, hu, -, hf⟩ := solved_iff.mp hsolved
    exact ⟨hu, hf⟩

/-- Unification from an acyclic substitution ends: from some depth on, no bound on the depth cuts it
off. If it succeeds, it has closed no cycle, kept all bindings and made the two terms equal. -/
theorem unify_sound (hs : s.Acyclic) (hexact : s.IsExact) (hl : l.isExact = true)
    (hr : r.isExact = true) :
    (∃ n, ∀ m ≥ n, unifyUntil m l r s = some (s.unify l r)) ∧
      ((s.unify l r).isConsistent = true →
        (s.unify l r).Acyclic ∧ (s.unify l r).Extends s ∧
          (s.unify l r).apply l = (s.unify l r).apply r) :=
  ⟨⟨unifyDepth l r s, fun _ hm ↦ hs.unifyUntil_eq hm⟩, fun h ↦
    ⟨hs.unify l r, unify_extends h, apply_unify hs hexact hl hr h⟩⟩

def nested : Substitution :=
  empty.bound ⟨"X", 1⟩ (.app (.name "f") [.var ⟨"Y", 2⟩])

def nestedLeft : Term :=
  .app (.name "g") [.var ⟨"X", 1⟩, .app (.op (.arith .add)) [.var ⟨"Z", 3⟩, .num (.int 1)]]

def nestedRight : Term :=
  .app (.name "g") [.app (.name "f") [.num (.int 3)],
    .app (.op (.arith .add)) [.var ⟨"Y", 2⟩, .num (.int 1)]]

theorem nested_acyclic : nested.Acyclic :=
  acyclic_empty.bound (by decide) (by decide +kernel)

theorem nested_isExact : nested.IsExact :=
  consistsOf_empty.bound _ (by decide)

theorem nested_sound :
    (∃ n, ∀ m ≥ n, unifyUntil m nestedLeft nestedRight nested =
      some (nested.unify nestedLeft nestedRight)) ∧
    (nested.unify nestedLeft nestedRight).Acyclic ∧
    (nested.unify nestedLeft nestedRight).Extends nested ∧
    (nested.unify nestedLeft nestedRight).apply nestedLeft =
      (nested.unify nestedLeft nestedRight).apply nestedRight :=
  have hsound := unify_sound nested_acyclic nested_isExact (by decide) (by decide)
  ⟨hsound.1, hsound.2 (by decide +kernel)⟩

/-- Unification finds a most general unifier wherever there is one, in either order of the terms. -/
theorem unify_mostGeneral (hs : s.Acyclic) (hc : s.isConsistent = true) (hexact : s.IsExact)
    (hl : l.isExact = true) (hr : r.isExact = true) :
    (∀ f, s.SolvedBy f → l.instantiate f = r.instantiate f →
        (s.unify l r).isConsistent = true ∧ (s.unify l r).SolvedBy f) ∧
      ((s.unify l r).isConsistent = false →
        ¬∃ f, s.SolvedBy f ∧ l.instantiate f = r.instantiate f) ∧
      ((s.unify l r).isConsistent = true →
        (s.SolvedBy (s.unify l r).solution ∧
          l.instantiate (s.unify l r).solution = r.instantiate (s.unify l r).solution) ∧
        ∀ f, s.SolvedBy f → l.instantiate f = r.instantiate f →
          ∀ v, f v = ((s.unify l r).solution v).instantiate f) ∧
      (s.unify r l).isConsistent = (s.unify l r).isConsistent := by
  have hiff (f : Variable → Term) := solvedBy_unify_iff (f := f) hs hc hexact hl hr
  have hiff' (f : Variable → Term) := solvedBy_unify_iff (f := f) hs hc hexact hr hl
  have hsolution (l r : Term) := (hs.unify l r).solvedBy_solution
  refine ⟨fun f h hlr ↦ (hiff f).mpr ⟨h, hlr⟩, fun hu ⟨f, hf⟩ ↦ ?_, fun hu ↦ ⟨?_, ?_⟩, ?_⟩
  · rw [((hiff f).mpr hf).1] at hu
    cases hu
  · exact (hiff _).mp ⟨hu, hsolution l r⟩
  · intro f h hlr
    exact (hs.unify l r).solvedBy_iff.mp ((hiff f).mpr ⟨h, hlr⟩).2
  · rw [Bool.eq_iff_iff]
    constructor
    · intro hu
      obtain ⟨h, hrl⟩ := (hiff' _).mp ⟨hu, hsolution r l⟩
      exact ((hiff _).mpr ⟨h, hrl.symm⟩).1
    · intro hu
      obtain ⟨h, hlr⟩ := (hiff _).mp ⟨hu, hsolution l r⟩
      exact ((hiff' _).mpr ⟨h, hlr.symm⟩).1

def threes (v : Variable) : Term :=
  if v.name = "X" then .app (.name "f") [.num (.int 3)] else .num (.int 3)

/-- Two terms that can be unified, and two that cannot since one of them stands for a term in which
the other one occurs. -/
theorem nested_mostGeneral :
    ((nested.unify nestedLeft nestedRight).isConsistent = true ∧
      (nested.unify nestedLeft nestedRight).SolvedBy threes ∧
      nestedLeft.instantiate (nested.unify nestedLeft nestedRight).solution =
        nestedRight.instantiate (nested.unify nestedLeft nestedRight).solution ∧
      (∀ v, threes v =
        ((nested.unify nestedLeft nestedRight).solution v).instantiate threes) ∧
      (nested.unify nestedRight nestedLeft).isConsistent = true) ∧
    ¬∃ f, nested.SolvedBy f ∧
      (Term.var ⟨"X", 1⟩).instantiate f = (Term.var ⟨"Y", 2⟩).instantiate f := by
  have hthrees : nested.SolvedBy threes := by
    intro v t hv
    rw [nested, get?_bound] at hv
    split at hv
    · rename_i hX
      cases hv
      rw [hX]
      rfl
    · cases hv
  have hequal : nestedLeft.instantiate threes = nestedRight.instantiate threes := rfl
  obtain ⟨hfinds, -, hgeneral, horder⟩ :=
    unify_mostGeneral (l := nestedLeft) (r := nestedRight) nested_acyclic (by decide) nested_isExact
      (by decide) (by decide)
  obtain ⟨-, hfails, -, -⟩ := unify_mostGeneral (l := .var ⟨"X", 1⟩) (r := .var ⟨"Y", 2⟩)
    nested_acyclic (by decide) nested_isExact (by decide) (by decide)
  obtain ⟨hc, hsolved⟩ := hfinds threes hthrees hequal
  obtain ⟨⟨-, hsolution⟩, hfactors⟩ := hgeneral hc
  exact ⟨⟨hc, hsolved, hsolution, hfactors threes hthrees hequal, horder.trans hc⟩,
    hfails (by decide +kernel)⟩

end Substitution

end Argumentation
