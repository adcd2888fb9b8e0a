import Argumentation.Proofs.Term.Congruence
import Argumentation.Substitution.Basic
import Mathlib.Algebra.Field.Rat
import Mathlib.Data.Int.Cast.Field
import Mathlib.Data.Int.Cast.Lemmas

namespace Argumentation

theorem int64?_eq_some {n : ℤ} {k : Int64} : int64? n = some k ↔ n = k.toInt := by
  have hrange : isInt64 n = true ↔ -2 ^ 63 ≤ n ∧ n < 2 ^ 63 := by
    rw [isInt64, Bool.and_eq_true, decide_eq_true_iff, decide_eq_true_iff]
    rfl
  rw [int64?, Option.ite_none_right_eq_some, hrange]
  constructor
  · rintro ⟨⟨hle, hlt⟩, hk⟩
    obtain rfl := Option.some.inj hk
    exact (Int64.toInt_ofInt_of_le hle hlt).symm
  · rintro rfl
    exact ⟨⟨k.le_toInt, k.toInt_lt⟩, congrArg some k.ofInt_toInt⟩

namespace Arith

variable {op : Arith} {a b : Number} {x y k : Int64}

def onRationals : Arith → ℚ → ℚ → ℚ
  | add, x, y => x + y
  | sub, x, y => x - y
  | mul, x, y => x * y
  | div, x, y => x / y

theorem div_eq_iff_mod {m n l : ℤ} (hn : n ≠ 0) : m % n = 0 ∧ m / n = l ↔ (m : ℚ) / n = l := by
  rw [div_eq_iff (Int.cast_ne_zero.mpr hn)]
  constructor
  · rintro ⟨hmod, rfl⟩
    exact_mod_cast (Int.ediv_mul_cancel (Int.dvd_of_emod_eq_zero hmod)).symm
  · intro h
    obtain rfl : m = l * n := by exact_mod_cast h
    exact ⟨Int.mul_emod_left l n, Int.mul_ediv_cancel l hn⟩

theorem integer?_eq_some {m n : ℤ} (hn : op = .div → n ≠ 0) :
    op.integer? m n = some k ↔ op.onRationals m n = k.toInt := by
  cases op with
  | add => rw [integer?, int64?_eq_some, onRationals]; norm_cast
  | sub => rw [integer?, int64?_eq_some, onRationals]; norm_cast
  | mul => rw [integer?, int64?_eq_some, onRationals]; norm_cast
  | div =>
    rw [integer?, Option.ite_none_right_eq_some, int64?_eq_some, div_eq_iff_mod (hn rfl),
      onRationals]

theorem compute_int_int_eq_int_iff : op.compute (.int x) (.int y) = some (.int k) ↔
    (op = .div → y ≠ 0) ∧ op.onRationals x.toInt y.toInt = k.toInt := by
  rw [compute]
  split
  · rename_i hzero
    exact iff_of_false (by simp) fun h ↦ h.1 hzero.1 hzero.2
  · rename_i hzero
    have hy : op = .div → y ≠ 0 := fun hop hy ↦ hzero ⟨hop, hy⟩
    rw [and_iff_right hy, ← integer?_eq_some fun hop ↦ mt (Int64.toInt_inj (y := 0)).mp (hy hop)]
    cases op.integer? x.toInt y.toInt <;> simp

/-- An operation gives an integer exactly where it would on rational numbers. -/
theorem compute_eq_int_iff : op.compute a b = some (.int k) ↔ ∃ x y : Int64, a = .int x ∧
    b = .int y ∧ (op = .div → y ≠ 0) ∧ op.onRationals x.toInt y.toInt = k.toInt := by
  constructor
  · intro h
    obtain ⟨ha, hb⟩ := Term.isInt_of_compute h rfl
    cases a <;> cases ha
    cases b <;> cases hb
    exact ⟨_, _, rfl, rfl, compute_int_int_eq_int_iff.mp h⟩
  · rintro ⟨x, y, rfl, rfl, h⟩
    exact compute_int_int_eq_int_iff.mpr h

/-- Whether the second number is zero for the purpose of dividing the first one by it: integers are
taken for doubles only when they meet one. -/
def dividesByZero : Number → Number → Bool
  | .int _, .int y => y == 0
  | _, b => b.toFloat == 0

theorem compute_eq_none_iff : op.compute a b = none ↔ op = .div ∧ dividesByZero a b = true := by
  unfold compute dividesByZero
  split
  · split
    · simp_all
    · split <;> simp_all
  · simp

end Arith

namespace Term

variable {g : Symbol} {n : Number} {ns : List Number} {t : Term} {xs : List Term}

theorem fold_eq_num_iff : fold g xs = num n ↔ ∃ op a b,
    g = .op (.arith op) ∧ xs = [num a, num b] ∧ op.compute a b = some n := by
  unfold fold
  split
  · rename_i op a b
    cases h : op.compute a b <;> simp [h]
  · rename_i hne
    refine iff_of_false nofun ?_
    rintro ⟨op, a, b, rfl, rfl, -⟩
    exact hne op a b rfl rfl

theorem evaluate_app_eq_some_iff : (app g xs).evaluate = some n ↔ ∃ op a b,
    g = .op (.arith op) ∧ evaluateAll xs = some [a, b] ∧ op.compute a b = some n := by
  constructor
  · intro h
    unfold evaluate at h
    split at h
    · rename_i heq
      cases heq
    · rename_i op ys heq
      cases heq
      split at h
      · rename_i a b hab
        exact ⟨op, a, b, rfl, hab, h⟩
      · cases h
    · cases h
  · rintro ⟨op, a, b, rfl, hab, h⟩
    rw [evaluate, hab]
    exact h

theorem evaluate_arith (op : Arith) (l r : Term) : (app (.op (.arith op)) [l, r]).evaluate =
    l.evaluate.bind fun a ↦ r.evaluate.bind fun b ↦ op.compute a b := by
  simp only [evaluate, evaluateAll]
  cases l.evaluate <;> cases r.evaluate <;> rfl

theorem evaluateAll_eq_some_iff :
    evaluateAll xs = some ns ↔ List.Forall₂ (fun x n ↦ x.evaluate = some n) xs ns := by
  induction xs generalizing ns with
  | nil => simp [evaluateAll, eq_comm]
  | cons x xs ih =>
    rw [evaluateAll, List.forall₂_cons_left_iff]
    simp only [← ih]
    cases x.evaluate <;> cases evaluateAll xs <;> simp [eq_comm]

theorem bind_var_eq_num_iff : t.bind var = num n ↔ t.evaluate = some n := by
  induction t using Term.induction generalizing n with
  | var v => simp [bind, evaluate]
  | num m => simp [bind, evaluate]
  | app g xs ih =>
    have hargs (ns : List Number) : xs.map (bind var) = ns.map num ↔ evaluateAll xs = some ns := by
      rw [evaluateAll_eq_some_iff, ← List.forall₂_eq_eq_eq, List.forall₂_map_left_iff,
        List.forall₂_map_right_iff]
      exact ⟨fun h ↦ forall₂_imp h fun x hx ↦ (ih x hx).mp,
        fun h ↦ forall₂_imp h fun x hx ↦ (ih x hx).mpr⟩
    rw [bind, bindAll_eq_map, fold_eq_num_iff, evaluate_app_eq_some_iff]
    refine exists_congr fun op ↦ exists₂_congr fun a b ↦ ?_
    rw [← hargs [a, b], List.map_cons, List.map_singleton]

end Term

/-- Operations on integer literals. -/
inductive Expression where
  | literal (n : Int64)
  | apply (op : Arith) (l r : Expression)

namespace Expression

variable {e l r p : Expression} {op : Arith} {k : Int64} {n : Number}

def term : Expression → Term
  | literal n => .num (.int n)
  | apply op l r => .app (.op (.arith op)) [l.term, r.term]

def parts : Expression → List Expression
  | literal n => [literal n]
  | apply op l r => apply op l r :: (l.parts ++ r.parts)

def value : Expression → ℚ
  | literal n => n.toInt
  | apply op l r => op.onRationals l.value r.value

/-- No divisor is zero, and all values on the way are integers of 64 bits. -/
structure IsIntegral (e : Expression) : Prop where
  divisor : ∀ l r, apply .div l r ∈ e.parts → r.value ≠ 0
  fits : ∀ p ∈ e.parts, ∃ n : Int64, p.value = n.toInt

theorem self_mem_parts : e ∈ e.parts := by
  cases e <;> exact .head _

theorem isIntegral_literal : (literal k).IsIntegral where
  divisor l r h := nomatch List.mem_singleton.mp h
  fits p h := ⟨k, by rw [List.mem_singleton.mp h, value]⟩

theorem isIntegral_apply : (apply op l r).IsIntegral ↔ l.IsIntegral ∧ r.IsIntegral ∧
    (op = .div → r.value ≠ 0) ∧ ∃ n : Int64, (apply op l r).value = n.toInt := by
  constructor
  · rintro ⟨hdivisor, hfits⟩
    have hl {p} (hp : p ∈ l.parts) : p ∈ (apply op l r).parts :=
      .tail _ (List.mem_append_left _ hp)
    have hr {p} (hp : p ∈ r.parts) : p ∈ (apply op l r).parts :=
      .tail _ (List.mem_append_right _ hp)
    refine ⟨⟨fun _ _ h ↦ hdivisor _ _ (hl h), fun _ h ↦ hfits _ (hl h)⟩,
      ⟨fun _ _ h ↦ hdivisor _ _ (hr h), fun _ h ↦ hfits _ (hr h)⟩, ?_, hfits _ self_mem_parts⟩
    rintro rfl
    exact hdivisor l r self_mem_parts
  · rintro ⟨hl, hr, hop, happly⟩
    constructor
    · intro l' r' h
      rcases List.mem_cons.mp h with heq | h
      · cases heq
        exact hop rfl
      · exact (List.mem_append.mp h).elim (hl.divisor l' r') (hr.divisor l' r')
    · intro p h
      rcases List.mem_cons.mp h with rfl | h
      · exact happly
      · exact (List.mem_append.mp h).elim (hl.fits p) (hr.fits p)

theorem evaluate_apply : (apply op l r).term.evaluate =
    l.term.evaluate.bind fun a ↦ r.term.evaluate.bind fun b ↦ op.compute a b :=
  Term.evaluate_arith op l.term r.term

/-- By induction on the expression: an operand of what gives an integer gives one itself. -/
theorem evaluate_eq_int_iff :
    e.term.evaluate = some (.int k) ↔ e.IsIntegral ∧ e.value = k.toInt := by
  induction e generalizing k with
  | literal n =>
    rw [and_iff_right isIntegral_literal, value, Int.cast_inj, Int64.toInt_inj]
    simp [term, Term.evaluate]
  | apply op l r ihl ihr =>
    rw [evaluate_apply, isIntegral_apply]
    simp only [Option.bind_eq_some_iff, Arith.compute_eq_int_iff]
    constructor
    · rintro ⟨_, hx, _, hy, x, y, rfl, rfl, hop, hk⟩
      obtain ⟨hl, hx⟩ := ihl.mp hx
      obtain ⟨hr, hy⟩ := ihr.mp hy
      rw [value, hx, hy, hk]
      refine ⟨⟨hl, hr, fun hdiv ↦ ?_, k, rfl⟩, rfl⟩
      exact Int.cast_ne_zero.mpr (mt (Int64.toInt_inj (y := 0)).mp (hop hdiv))
    · rintro ⟨⟨hl, hr, hop, -⟩, hk⟩
      obtain ⟨x, hx⟩ := hl.fits l self_mem_parts
      obtain ⟨y, hy⟩ := hr.fits r self_mem_parts
      rw [value, hx, hy] at hk
      refine ⟨_, ihl.mpr ⟨hl, hx⟩, _, ihr.mpr ⟨hr, hy⟩, x, y, rfl, rfl, fun hdiv hzero ↦ ?_, hk⟩
      exact hop hdiv (by rw [hy, hzero, Int64.toInt_zero, Int.cast_zero])

theorem evaluate_eq_none_iff : e.term.evaluate = none ↔ ∃ l r a b, apply .div l r ∈ e.parts ∧
    l.term.evaluate = some a ∧ r.term.evaluate = some b ∧ Arith.dividesByZero a b = true := by
  induction e with
  | literal n => simp [term, Term.evaluate, parts]
  | apply op l r ihl ihr =>
    rw [evaluate_apply]
    constructor
    · intro h
      cases hl : l.term.evaluate with
      | none =>
        obtain ⟨l', r', a, b, hmem, h⟩ := ihl.mp hl
        exact ⟨l', r', a, b, .tail _ (List.mem_append_left _ hmem), h⟩
      | some a =>
        cases hr : r.term.evaluate with
        | none =>
          obtain ⟨l', r', a, b, hmem, h⟩ := ihr.mp hr
          exact ⟨l', r', a, b, .tail _ (List.mem_append_right _ hmem), h⟩
        | some b =>
          rw [hl, hr] at h
          obtain ⟨rfl, hzero⟩ := Arith.compute_eq_none_iff.mp h
          exact ⟨l, r, a, b, self_mem_parts, hl, hr, hzero⟩
    · rintro ⟨l', r', a, b, hmem, ha, hb, hzero⟩
      rcases List.mem_cons.mp hmem with heq | hmem
      · cases heq
        rw [ha, hb]
        exact Arith.compute_eq_none_iff.mpr ⟨rfl, hzero⟩
      · rcases List.mem_append.mp hmem with hmem | hmem
        · rw [ihl.mpr ⟨l', r', a, b, hmem, ha, hb, hzero⟩, Option.bind_none]
        · rw [ihr.mpr ⟨l', r', a, b, hmem, ha, hb, hzero⟩]
          cases l.term.evaluate <;> rfl

end Expression

/-- Folding gives the numbers that evaluation gives. An expression has an integer for its value
exactly where no divisor is zero, all exact values on the way are integers of 64 bits and the
integer is the last of them; otherwise it has a double, or none where something is divided by zero.
-/
theorem folding_exact :
    (∀ (t : Term) (n : Number), Substitution.empty.apply t = .num n ↔ t.evaluate = some n) ∧
    (∀ (e : Expression) (k : Int64),
      e.term.evaluate = some (.int k) ↔ e.IsIntegral ∧ e.value = k.toInt) ∧
    ∀ e : Expression, e.term.evaluate = none ↔ ∃ l r a b, .apply .div l r ∈ e.parts ∧
      l.term.evaluate = some a ∧ r.term.evaluate = some b ∧ Arith.dividesByZero a b = true :=
  ⟨fun _ _ ↦ Term.bind_var_eq_num_iff, fun _ _ ↦ Expression.evaluate_eq_int_iff,
    fun _ ↦ Expression.evaluate_eq_none_iff⟩

/-- The quotient of the least integer and minus one does not fit, though none of the two is at
fault. -/
theorem quotients_evaluated :
    let quotient (m n : Int64) : Expression := .apply .div (.literal m) (.literal n)
    (Substitution.empty.apply (quotient 6 3).term = .num (.int 2) ∧ (quotient 6 3).IsIntegral ∧
      (quotient 6 3).value = (2 : Int64).toInt) ∧
    ((quotient Int64.minValue (-1)).term.evaluate ≠ none ∧
      ¬ (quotient Int64.minValue (-1)).IsIntegral) ∧
    ∃ l r a b, .apply .div l r ∈ (quotient 1 0).parts ∧ l.term.evaluate = some a ∧
      r.term.evaluate = some b ∧ Arith.dividesByZero a b = true := by
  intro quotient
  have hvalue : (quotient 6 3).term.evaluate = some (.int 2) := rfl
  refine ⟨⟨(folding_exact.1 _ _).mpr hvalue, (folding_exact.2.1 _ _).mp hvalue⟩, ⟨nofun, ?_⟩,
    (folding_exact.2.2 _).mp rfl⟩
  intro h
  obtain ⟨n, hn⟩ := h.fits _ Expression.self_mem_parts
  have hint := (folding_exact.2.1 (quotient Int64.minValue (-1)) n).mpr ⟨h, hn⟩
  cases hint

end Argumentation
