import Argumentation.Proofs.Term.Renumbering
import Argumentation.Substitution.Evaluation
import Argumentation.Substitution.Unify

namespace Argumentation

open Equiv (Perm)

variable (π : Perm ℕ)

namespace Bindings

theorem size_smul (b : Bindings) : size (b.map (π • ·)) = b.size := by
  rw [size, size, List.foldr_map]
  congr 1
  funext e n
  rw [Prod.smul_snd, Term.size_smul]

theorem without_smul (b : Bindings) (v : Variable) :
    without (b.map (π • ·)) (π • v) = (b.without v).map (π • ·) := by
  rw [without, without, List.filter_map]
  congr 2
  funext e
  simp only [Function.comp_apply, Prod.smul_fst, bne]
  rw [Bool.eq_iff_iff]
  simp

theorem lookup_smul (b : Bindings) (v : Variable) :
    (b.map (π • ·)).lookup (π • v) = (b.lookup v).map (π • ·) := by
  induction b with
  | nil => rfl
  | cons e b ih =>
    obtain ⟨w, t⟩ := e
    have hw : (π • v == π • w) = (v == w) := by
      rw [Bool.eq_iff_iff]
      simp
    rw [List.map_cons, Prod.smul_mk, List.lookup_cons, List.lookup_cons, hw, ih]
    cases v == w <;> rfl

theorem follow_smul (n : ℕ) (b : Bindings) (v : Variable) :
    follow n (b.map (π • ·)) (π • v) = π • follow n b v := by
  induction n generalizing b v with
  | zero => rfl
  | succ n ih =>
    rw [follow, follow, lookup_smul]
    cases b.lookup v with
    | none => rfl
    | some t =>
      simp only [Option.map_some]
      rw [Term.smul_bind, without_smul]
      congr 1
      funext w
      rw [← ih, smul_inv_smul]

end Bindings

namespace Substitution

instance : MulAction (Perm ℕ) Substitution where
  smul π s := ⟨s.bindings.map (π • ·), s.banned.map (π • ·), s.clashed⟩
  one_smul s := by
    show Substitution.mk (s.bindings.map (1 • ·)) (s.banned.map (1 • ·)) s.clashed = s
    simp only [one_smul, List.map_id']
  mul_smul π ρ s := by
    show Substitution.mk (s.bindings.map ((π * ρ) • ·)) (s.banned.map ((π * ρ) • ·)) s.clashed =
      Substitution.mk ((s.bindings.map (ρ • ·)).map (π • ·)) ((s.banned.map (ρ • ·)).map (π • ·))
        s.clashed
    simp only [List.map_map, mul_smul, Function.comp_def]

@[simp]
theorem smul_bindings (s : Substitution) : (π • s).bindings = s.bindings.map (π • ·) :=
  rfl

@[simp]
theorem smul_banned (s : Substitution) : (π • s).banned = s.banned.map (π • ·) :=
  rfl

@[simp]
theorem smul_clashed (s : Substitution) : (π • s).clashed = s.clashed :=
  rfl

theorem get?_smul (s : Substitution) (v : Variable) :
    (π • s).get? (π • v) = (s.get? v).map (π • ·) :=
  Bindings.lookup_smul π s.bindings v

theorem isBanned_smul (s : Substitution) (v : Variable) :
    (π • s).isBanned (π • v) = s.isBanned v := by
  rw [isBanned, isBanned, Bool.eq_iff_iff]
  simp

@[simp]
theorem isConsistent_smul (s : Substitution) : (π • s).isConsistent = s.isConsistent := by
  simp [isConsistent]

theorem smul_apply (s : Substitution) (t : Term) : π • s.apply t = (π • s).apply (π • t) := by
  rw [apply, apply, Term.smul_bind, smul_bindings, List.length_map]
  congr 1
  funext v
  rw [← Bindings.follow_smul, smul_inv_smul]

theorem smul_ban (s : Substitution) (v : Variable) : π • s.ban v = (π • s).ban (π • v) := by
  have hbanned : (if s.isBanned v then s.banned else v :: s.banned).map (π • ·) =
      if s.isBanned v then s.banned.map (π • ·) else π • v :: s.banned.map (π • ·) := by
    split <;> rfl
  rw [ban, ban, isBanned_smul, smul_bindings, Bindings.without_smul, smul_banned, ← hbanned]
  rfl

theorem smul_add (s : Substitution) (v : Variable) (t : Term) :
    π • s.add v t = (π • s).add (π • v) (π • t) := by
  unfold add
  rw [isBanned_smul, ← Term.smul_var, Term.same_smul, get?_smul]
  split
  · rfl
  split
  · rfl
  cases s.get? v with
  | none => rfl
  | some u =>
    simp only [Option.map_some, Term.same_smul]
    split
    · rfl
    · exact smul_ban π s v

theorem smul_walkWithin (n : ℕ) (s : Substitution) (t : Term) :
    π • s.walkWithin n t = (π • s).walkWithin n (π • t) := by
  induction n generalizing t with
  | zero => rfl
  | succ n ih =>
    cases t with
    | var v =>
      rw [Term.smul_var, walkWithin, walkWithin, get?_smul]
      cases s.get? v with
      | none => rfl
      | some t => exact ih t
    | num n => rfl
    | app g xs => rw [Term.smul_app]; simp only [walkWithin, Term.smul_app]

theorem smul_walk (s : Substitution) (t : Term) : π • s.walk t = (π • s).walk (π • t) := by
  rw [walk, walk, smul_walkWithin, smul_bindings, List.length_map]

theorem smul_bindVariable (s : Substitution) (v : Variable) (t : Term) :
    π • s.bindVariable v t = (π • s).bindVariable (π • v) (π • t) := by
  unfold bindVariable
  rw [← smul_apply, Term.mentions_smul]
  split
  · exact smul_ban π s v
  · exact smul_add π s v t

theorem smul_foldl_unifyWithin {n : ℕ}
    (h : ∀ l r s, π • unifyWithin n l r s = unifyWithin n (π • l) (π • r) (π • s))
    (ps : List (Term × Term)) (s : Substitution) :
    π • ps.foldl (fun u (x, y) ↦ unifyWithin n x y u) s =
      (ps.map (π • ·)).foldl (fun u (x, y) ↦ unifyWithin n x y u) (π • s) := by
  induction ps generalizing s with
  | nil => rfl
  | cons p ps ih =>
    rw [List.foldl_cons, ih, h]
    rfl

theorem smul_unifyWithin (n : ℕ) (l r : Term) (s : Substitution) :
    π • unifyWithin n l r s = unifyWithin n (π • l) (π • r) (π • s) := by
  induction n generalizing l r s with
  | zero => rfl
  | succ n ih =>
    rw [unifyWithin, unifyWithin, isConsistent_smul, ← smul_walk, ← smul_walk]
    split
    · rfl
    cases s.walk l with
    | var v =>
      cases s.walk r with
      | var w =>
        simp only [Term.smul_var, smul_left_cancel_iff]
        split
        · rfl
        · exact smul_bindVariable π s v (.var w)
      | num b => exact smul_bindVariable π s v (.num b)
      | app g ys =>
        simp only [Term.smul_app, Term.smul_var]
        rw [smul_bindVariable, Term.smul_app]
    | num a =>
      cases s.walk r with
      | var w => exact smul_bindVariable π s w (.num a)
      | num b =>
        simp only [Term.smul_num]
        split <;> rfl
      | app g ys =>
        simp only [Term.smul_app, Term.smul_num]
        rfl
    | app f xs =>
      cases s.walk r with
      | var w =>
        simp only [Term.smul_app, Term.smul_var]
        rw [smul_bindVariable, Term.smul_app]
      | num b =>
        simp only [Term.smul_app, Term.smul_num]
        rfl
      | app g ys =>
        simp only [Term.smul_app, List.length_map]
        split
        · rw [smul_foldl_unifyWithin π ih, List.zip_map]
          rfl
        · rfl

theorem smul_unify (s : Substitution) (l r : Term) :
    π • s.unify l r = (π • s).unify (π • l) (π • r) := by
  simp only [unify, smul_unifyWithin, unifyDepth, Term.size_smul, smul_bindings,
    Bindings.size_smul]

end Substitution

namespace Evaluation

def renumber : Evaluation → Evaluation
  | succeeded s => succeeded (π • s)
  | failed => failed
  | lookup => lookup

theorem renumber_ofBool (holds : Bool) (s : Substitution) :
    (ofBool holds s).renumber π = ofBool holds (π • s) := by
  cases holds <;> rfl

theorem renumber_ofIs (l r : Term) (s : Substitution) :
    (ofIs l r s).renumber π = ofIs (π • l) (π • r) (π • s) := by
  unfold ofIs
  rw [Term.evaluate_smul]
  cases r.evaluate with
  | none => rfl
  | some value =>
    cases l with
    | var v =>
      have hadd : (π • s).add (π • v) (.num value) = π • s.add v (.num value) :=
        (Substitution.smul_add π s v (.num value)).symm
      simp only [Term.smul_var, hadd, Substitution.isConsistent_smul, renumber_ofBool]
    | num n => exact renumber_ofBool π _ s
    | app g xs => simp only [Term.smul_app]; rfl

theorem renumber_ofComparison (rel : Comparison) (l r : Term) (s : Substitution) :
    (ofComparison rel l r s).renumber π = ofComparison rel (π • l) (π • r) (π • s) := by
  unfold ofComparison
  rw [Term.evaluate_smul, Term.evaluate_smul]
  split
  · exact renumber_ofBool π _ s
  · rfl

end Evaluation

theorem Operator.renumber_evaluate (op : Operator) (args : List Term) (s : Substitution) :
    (op.evaluate args s).renumber π = op.evaluate (args.map (π • ·)) (π • s) := by
  have hargs : (args.map (π • ·)).map (π • s).apply = (args.map s.apply).map (π • ·) := by
    simp only [List.map_map, Function.comp_def, Substitution.smul_apply]
  unfold evaluate
  rw [hargs]
  rcases args.map s.apply with _ | ⟨x, _ | ⟨y, _ | ⟨z, zs⟩⟩⟩
  · cases op <;> rfl
  · cases op with
    | nonvar =>
      simp only [List.map_cons, List.map_nil, Evaluation.renumber_ofBool, Term.isVariable_smul]
    | _ => rfl
  · cases op with
    | arith op =>
      simp only [List.map_cons, List.map_nil, Term.evaluate_smul]
      split <;> rfl
    | comparison rel => exact Evaluation.renumber_ofComparison π rel x y s
    | identical =>
      simp only [List.map_cons, List.map_nil, Evaluation.renumber_ofBool, Term.same_smul]
    | notIdentical =>
      simp only [List.map_cons, List.map_nil, Evaluation.renumber_ofBool, Term.same_smul]
    | is => exact Evaluation.renumber_ofIs π x y s
    | _ => rfl
  · cases op <;> rfl

end Argumentation
