import Argumentation.Proofs.Argument.Denials
import Argumentation.Proofs.Argument.Relocation
import Argumentation.Proofs.Argument.Streams
import Argumentation.Proofs.RelatedLists
import Mathlib.Data.Fintype.EquivFin

namespace Argumentation

open Equiv (Perm)

open Substitution (Framed)

def askedAs (s : Substitution) (goal : Term) : Term :=
  match settlement s goal with
  | .lookup literal => literal
  | _ => goal

theorem askedAs_smul (π : Perm ℕ) (s : Substitution) (goal : Term) :
    askedAs (π • s) (π • goal) = π • askedAs s goal := by
  rw [askedAs, askedAs, settlement_smul]
  cases settlement s goal <;> rfl

/-- A node of an argument. Its goals are the one that it was made for and those above, as they were
asked for, the nearest first. -/
structure Placed where
  goals : List Term
  node : Argument

namespace Argument

mutual

/-- The nodes of an argument for a goal that is asked below some others. -/
def places (above : List Term) (s : Substitution) (goal : Term) : Argument → List Placed
  | a@⟨_, rule, _, subs, _, _⟩ =>
    let asked := askedAs s goal
    ⟨asked :: above, a⟩ ::
      placesAll (asked :: above) (s.unify rule.consequent asked) rule.antecedent subs

/-- The nodes of the arguments for a conjunction, each under the bindings of those before it. An
argument without a literal stands for its claim. -/
def placesAll (above : List Term) (s : Substitution) (es : List Term) : List Argument → List Placed
  | [] => []
  | a :: as =>
    places above s (s.apply (es.headD a.claim)) a ++ placesAll above a.substitution es.tail as

end

theorem mem_placesAll {as : List Argument} (ih : ∀ a ∈ as, ∀ above s goal, ∀ b ∈ a.subtree,
    ∃ x ∈ a.places above s goal, x.node = b) (above : List Term) (s : Substitution)
    (es : List Term) : ∀ a ∈ as, ∀ b ∈ a.subtree, ∃ x ∈ placesAll above s es as, x.node = b := by
  induction as generalizing s es with
  | nil =>
    intro a ha
    cases ha
  | cons a as ihas =>
    intro c hc b hb
    rw [placesAll]
    rcases List.mem_cons.mp hc with rfl | hc
    · obtain ⟨x, hx, hxb⟩ := ih c (.head _) above s _ b hb
      exact ⟨x, List.mem_append_left _ hx, hxb⟩
    · obtain ⟨x, hx, hxb⟩ := ihas (fun d hd ↦ ih d (.tail _ hd)) a.substitution es.tail c hc b hb
      exact ⟨x, List.mem_append_right _ hx, hxb⟩

theorem mem_places (a : Argument) : ∀ above s goal, ∀ b ∈ a.subtree,
    ∃ x ∈ a.places above s goal, x.node = b := by
  induction a using Argument.induction with
  | step a ih =>
    intro above s goal b hb
    obtain ⟨id, r, u, subs, strength, depth⟩ := a
    rw [places]
    rcases mem_subtree.mp hb with rfl | ⟨c, hc, hb⟩
    · exact ⟨_, .head _, rfl⟩
    · obtain ⟨x, hx, hxb⟩ := mem_placesAll ih _ _ _ c hc b hb
      exact ⟨x, .tail _ hx, hxb⟩

variable {π : Perm ℕ}

theorem placesAll_of_alike {as bs : List Argument} (h : as.map form = bs.map (π • ·.form))
    (ih : ∀ b ∈ bs, ∀ a : Argument, a.form = π • b.form → ∀ above s goal,
      ∀ y ∈ a.places (above.map (π • ·)) (π • s) (π • goal), ∃ z ∈ b.places above s goal,
        y.goals = z.goals.map (π • ·) ∧ y.node.form = π • z.node.form)
    (above : List Term) (s : Substitution) (es : List Term) :
    ∀ y ∈ placesAll (above.map (π • ·)) (π • s) (es.map (π • ·)) as,
      ∃ z ∈ placesAll above s es bs,
        y.goals = z.goals.map (π • ·) ∧ y.node.form = π • z.node.form := by
  induction bs generalizing as s es with
  | nil =>
    intro y hy
    cases List.map_eq_nil_iff.mp h
    cases hy
  | cons b bs ihbs =>
    intro y hy
    obtain ⟨a, as, rfl, hab, hrest⟩ := List.map_eq_cons_iff.mp h
    have hsubstitution : a.substitution = π • b.substitution := by
      rw [← form_substitution a, hab, smul_substitution, form_substitution]
    have hclaim : a.claim = π • b.claim := by
      rw [← form_claim a, hab, smul_claim, form_claim]
    have hhead : (es.map (π • ·)).headD a.claim = π • es.headD b.claim := by
      rw [hclaim]
      cases es <;> rfl
    rw [placesAll, hhead, ← Substitution.smul_apply, hsubstitution, ← List.map_tail] at hy
    rw [placesAll]
    rcases List.mem_append.mp hy with hy | hy
    · obtain ⟨z, hz, hyz⟩ := ih b (.head _) a hab above s _ y hy
      exact ⟨z, List.mem_append_left _ hz, hyz⟩
    · obtain ⟨z, hz, hyz⟩ := ihbs hrest (fun c hc ↦ ih c (.tail _ hc)) b.substitution es.tail y hy
      exact ⟨z, List.mem_append_right _ hz, hyz⟩

/-- Arguments that differ in numbers only have the same nodes but for these numbers. -/
theorem places_of_alike (b : Argument) : ∀ a : Argument, a.form = π • b.form → ∀ above s goal,
    ∀ y ∈ a.places (above.map (π • ·)) (π • s) (π • goal), ∃ z ∈ b.places above s goal,
      y.goals = z.goals.map (π • ·) ∧ y.node.form = π • z.node.form := by
  induction b using Argument.induction with
  | step b ih =>
    intro a hab above s goal y hy
    obtain ⟨id, r, u, subs, strength, depth⟩ := a
    obtain ⟨id', r', u', subs', strength', depth'⟩ := b
    have hparts := hab
    rw [form_mk, form_mk, smul_mk] at hparts
    obtain ⟨-, rfl, rfl, hsubs, rfl, rfl⟩ := Argument.mk.inj hparts
    rw [List.map_map] at hsubs
    have hunify : (π • s).unify (π • r').consequent (π • askedAs s goal) =
        π • s.unify r'.consequent (askedAs s goal) := (Substitution.smul_unify π s _ _).symm
    rw [places, askedAs_smul, hunify, Rule.smul_antecedent] at hy
    rw [places]
    rcases List.mem_cons.mp hy with rfl | hy
    · exact ⟨_, .head _, rfl, hab⟩
    · obtain ⟨z, hz, hyz⟩ := placesAll_of_alike hsubs ih (askedAs s goal :: above) _ _ y hy
      exact ⟨z, .tail _ hz, hyz⟩

end Argument

namespace Substitution

theorem not_isConsistent_unify_app (s : Substitution) {f g : Symbol} (hfg : f ≠ g)
    (xs ys : List Term) : (s.unify (.app f xs) (.app g ys)).isConsistent = false := by
  obtain ⟨n, hn⟩ : ∃ n, unifyDepth (.app f xs) (.app g ys) s = n + 1 :=
    Nat.exists_eq_succ_of_ne_zero (by simp [unifyDepth])
  rw [unify, hn, unifyWithin]
  split
  · rename_i hs
    simpa using hs
  · simp only [walk, walkWithin, hfg, false_and, if_false]
    exact not_isConsistent_clash s

/-- If only variables with low numbers matter, then no other ones are bound. -/
theorem get?_of_below {s : Substitution} {n : ℕ} (hs : Below n s) {v : Variable} (hv : n ≤ v.id) :
    s.get? v = none := by
  cases ht : s.get? v with
  | none => rfl
  | some t =>
    obtain ⟨j, hj⟩ := Infinite.exists_notMem_finset
      ((s.bindings.map (·.1.id)).toFinset ∪ Finset.range n)
    rw [Finset.mem_union, not_or, Finset.mem_range, List.mem_toFinset] at hj
    obtain ⟨hfree, hjn⟩ := hj
    -- Swapping the variable's number with one that is not in use would bind another variable.
    have hkeep : ∀ i < n, Equiv.swap v.id j i = i := fun i hi ↦
      Equiv.swap_apply_of_ne_of_ne (by omega) (by omega)
    have hswapped := get?_smul (Equiv.swap v.id j) s v
    rw [Below.iff_forall.mp hs _ hkeep, ht, Variable.smul_def, Equiv.swap_apply_left] at hswapped
    exact absurd (List.mem_map.mpr ⟨_, Bindings.mem_of_lookup hswapped, rfl⟩) hfree

/-- Bindings under which a goal over the variables with numbers below a bound can be asked. -/
structure Usable (n : ℕ) (s : Substitution) : Prop where
  below : Below n s
  acyclic : s.Acyclic
  consistent : s.isConsistent = true

theorem Usable.unify {s : Substitution} {m n : ℕ} (hs : s.Usable n) (hle : n ≤ m) {l r : Term}
    (hl : Below m l) (hr : Below m r) (hconsistent : (s.unify l r).isConsistent = true) :
    (s.unify l r).Usable m :=
  ⟨below_unify (hs.below.mono hle) hl hr, hs.acyclic.unify l r, hconsistent⟩

end Substitution

namespace Theory

variable {t : Theory} {p : Position} {s : Substitution} {goal : Term} {c n : ℕ}

theorem allArguments_below (hp : Below n p) (hs : Below n s) (hacyclic : s.Acyclic)
    (hgoal : Below n goal) (happlied : s.apply goal = goal) :
    ∀ x ∈ t.allArguments p s goal n, n ≤ x.2 ∧ Below x.2 x.1 := by
  have hkeep : ∀ i < n, (1 : Perm ℕ) i < n := fun _ hi ↦ hi
  have hfollows : ∃ f : Flow Argument,
      f.Follows (Agrees Argument.form 1 n) n (t.allArguments p s goal n) := by
    rcases Nat.lt_or_ge t.maxDepth p.depth with hdepth | hdepth
    · exact ⟨_, beyond_follows hp hdepth hkeep hs _ (Nat.lt_succ_self _) hgoal happlied⟩
    · have hlevels : t.maxDepth + 1 - p.depth + p.depth = t.maxDepth + 1 := by omega
      exact ⟨_, solve_follows hp hlevels hkeep hs hacyclic hgoal happlied⟩
  obtain ⟨f, hf⟩ := hfollows
  intro x hx
  have hdrained := hf.toList (s := ⟨n, 0⟩) (Nat.le_refl n)
  obtain ⟨a, -, m, hle, hbelow, -⟩ := exists_of_forall₂ hdrained.flip x hx
  exact ⟨hle, hbelow⟩

theorem allArguments_usable (hp : Below n p) (hs : s.Usable n) (hgoal : Below n goal)
    (happlied : s.apply goal = goal) :
    ∀ x ∈ t.allArguments p s goal n, n ≤ x.2 ∧ x.1.substitution.Usable x.2 := by
  intro x hx
  obtain ⟨hle, hbelow⟩ := allArguments_below hp hs.below hs.acyclic hgoal happlied x hx
  have hbuilt := allArguments_built p goal s n x hx
  refine ⟨hle, ?_, hbuilt.acyclic hs.acyclic, hbuilt.isConsistent hs.consistent⟩
  exact hbelow.map fun π ↦ (Argument.smul_substitution π x.1).symm

theorem places_of_mem_foldl {computed : Substitution → Term → ℕ → List (Argument × ℕ)}
    {above : List Term} {Q : Placed → Prop} {es : List Term}
    (h : ∀ e ∈ es, ∀ u n, c ≤ n → u.Usable n → ∀ x ∈ computed u e n,
      n ≤ x.2 ∧ x.1.substitution.Usable x.2 ∧ ∀ y ∈ x.1.places above u (u.apply e), Q y)
    {ls : List (ArgumentList × ℕ)} (hls : ∀ x ∈ ls, c ≤ x.2 ∧ x.1.substitution.Usable x.2) :
    ∀ x ∈ es.foldl (extendAll computed) ls, ∃ l ∈ ls, ∃ as,
      x.1.arguments = l.1.arguments ++ as ∧
        ∀ y ∈ Argument.placesAll above l.1.substitution es as, Q y := by
  induction es generalizing ls with
  | nil =>
    intro x hx
    exact ⟨x, hx, [], (List.append_nil _).symm, fun y hy ↦ by simp [Argument.placesAll] at hy⟩
  | cons e es ih =>
    intro x hx
    have hextended : ∀ x ∈ extendAll computed ls e, c ≤ x.2 ∧ x.1.substitution.Usable x.2 := by
      intro y hy
      obtain ⟨l, hl, hy⟩ := List.mem_flatMap.mp hy
      obtain ⟨a, ha, rfl⟩ := List.mem_map.mp hy
      obtain ⟨hle, husable⟩ := hls l hl
      obtain ⟨hle', husable', -⟩ := h e (.head _) l.1.substitution l.2 hle husable a ha
      exact ⟨hle.trans hle', husable'⟩
    obtain ⟨m, hm, as, has, hplaces⟩ := ih (fun x hx ↦ h x (.tail _ hx)) hextended x hx
    obtain ⟨l, hl, hm⟩ := List.mem_flatMap.mp hm
    obtain ⟨a, ha, rfl⟩ := List.mem_map.mp hm
    obtain ⟨hle, husable⟩ := hls l hl
    refine ⟨l, hl, a.1 :: as, ?_, fun y hy ↦ ?_⟩
    · simpa [ArgumentList.push] using has
    · rw [Argument.placesAll] at hy
      rcases List.mem_append.mp hy with hy | hy
      · exact (h e (.head _) l.1.substitution l.2 hle husable a ha).2.2 y hy
      · exact hplaces y hy

theorem places_of_mem_allLists {computed : Substitution → Term → ℕ → List (Argument × ℕ)}
    {above : List Term} {Q : Placed → Prop} {es : List Term}
    (h : ∀ e ∈ es, ∀ u m, n ≤ m → u.Usable m → ∀ x ∈ computed u e m,
      m ≤ x.2 ∧ x.1.substitution.Usable x.2 ∧ ∀ y ∈ x.1.places above u (u.apply e), Q y)
    (hs : s.Usable n) : ∀ x ∈ allLists computed s n es,
      ∀ y ∈ Argument.placesAll above s es x.1.arguments, Q y := by
  intro x hx
  have hstart : ∀ l ∈ [(ArgumentList.empty s, n)], n ≤ l.2 ∧ l.1.substitution.Usable l.2 := by
    intro l hl
    rw [List.mem_singleton.mp hl]
    exact ⟨Nat.le_refl n, hs⟩
  obtain ⟨l, hl, as, has, hplaces⟩ := places_of_mem_foldl h hstart x hx
  cases List.mem_singleton.mp hl
  rw [has]
  exact hplaces

def Fruitless (t : Theory) (x : Placed) : Prop :=
  ∀ inner, x.node.rule.consequent = .app (.op .notProvable) [inner] →
    ∃ (u : Substitution) (n : ℕ), u.Usable n ∧ u.apply inner = inner ∧
      t.allArguments ⟨0, x.node.depth + 1, x.goals⟩ u inner n = []

theorem lookupAll_fruitless {literal : Term} (hlookup : settlement s goal = .lookup literal)
    (hp : Below n p) (hs : s.Usable n) (hliteral : Below n literal)
    (hbelow : p.depth ≤ t.maxDepth → ∀ q e, q.depth = p.depth + 1 → ∀ u m, Below m q → u.Usable m →
      Below m e → u.apply e = e → ∀ x ∈ t.allArguments q u e m, ∀ y ∈ x.1.places q.ancestors u e,
        t.Fruitless y) :
    ∀ x ∈ t.lookupAll p s literal n, ∀ y ∈ x.1.places p.ancestors s goal, t.Fruitless y := by
  intro x hx y hy
  obtain ⟨hdepth, r, hr, hunified, l, hl, rfl⟩ := mem_lookupAll hx
  have hasked : askedAs s goal = literal := by rw [askedAs, hlookup]
  rw [Argument.places, hasked] at hy
  rcases List.mem_cons.mp hy with rfl | hy
  · -- No rule concludes a negation as failure.
    obtain ⟨f, xs, rfl⟩ := exists_name_of_settlement hlookup
    intro inner hinner
    rw [show (r.renameApart n).consequent = _ from hinner,
      s.not_isConsistent_unify_app (by simp)] at hunified
    cases hunified
  · have hle : n ≤ n + r.allVars.length := Nat.le_add_right n _
    have hrenamed := r.below_renameApart n
    have hstart := hs.unify hle (Rule.below_consequent hrenamed) (hliteral.mono hle) hunified
    refine places_of_mem_allLists (fun e he u m hm hu z hz ↦ ?_) hstart l hl y hy
    have hq : Below m (p.below literal (t.subThreshold p.threshold)) :=
      (Position.below_below hp hliteral _).mono (hle.trans hm)
    have he : Below m (u.apply e) :=
      Substitution.below_apply hu.below ((Rule.below_antecedent hrenamed e he).mono hm)
    have happlied := Substitution.apply_idem hu.acyclic e
    obtain ⟨hmz, husable⟩ := allArguments_usable hq hu he happlied z hz
    exact ⟨hmz, husable, hbelow hdepth _ _ rfl u m hq hu he happlied z hz⟩

theorem allArguments_fruitless (p : Position) (goal : Term) : ∀ s n, Below n p → s.Usable n →
    Below n goal → s.apply goal = goal → ∀ x ∈ t.allArguments p s goal n,
      ∀ y ∈ x.1.places p.ancestors s goal, t.Fruitless y := by
  induction p, goal using t.allArguments_induction with
  | step p goal ihbelow _ =>
    intro s n hp hs hgoal happlied x hx y hy
    rw [allArguments_eq] at hx
    cases hsettlement : settlement s goal with
    | unsolved =>
      rw [hsettlement] at hx
      cases hx
    | evaluated u =>
      rw [hsettlement] at hx
      cases List.mem_singleton.mp hx
      cases List.mem_singleton.mp hy
      intro inner hinner
      rw [show goal = .app (.op .notProvable) [inner] from hinner] at hsettlement
      cases hsettlement
    | absent inner =>
      rw [hsettlement] at hx
      dsimp only at hx
      split at hx
      · rename_i hempty
        cases List.mem_singleton.mp hx
        cases List.mem_singleton.mp hy
        intro inner' hinner
        have hgoal : goal = .app (.op .notProvable) [inner'] := hinner
        cases hgoal.symm.trans (eq_of_settlement_absent hsettlement)
        refine ⟨s, n, hs, apply_of_settlement_absent hsettlement happlied, ?_⟩
        rw [askedAs, hsettlement]
        exact List.isEmpty_iff.mp hempty
      · cases hx
    | lookup literal =>
      rw [hsettlement] at hx
      have hliteral : Below n literal := isBelow_of_settlement hs.below hgoal hsettlement
      exact lookupAll_fruitless hsettlement hp hs hliteral ihbelow x hx y hy

/-- If the node stands for a negation as failure of a ground goal, then there is no argument for
this goal from the root, provided that whatever is looked up for it there is admitted below the
node. -/
def Justified (t : Theory) (x : Placed) : Prop :=
  ∀ inner : Term, x.node.rule.consequent = .app (.op .notProvable) [inner] →
    inner.isGround = true →
    (∀ y ∈ t.lookups (t.maxDepth + 1) (.root 0) .empty inner 0,
      t.Admits (x.node.depth + 1) x.goals y) →
    ∀ supply, ((t.arguments 0 inner).toList supply).1 = []

theorem Fruitless.root {x : Placed} (hx : t.Fruitless x) {inner : Term}
    (hinner : x.node.rule.consequent = .app (.op .notProvable) [inner])
    (hground : inner.isGround = true)
    (hadmits : ∀ y ∈ t.lookups (t.maxDepth + 1) (.root 0) .empty inner 0,
      t.Admits (x.node.depth + 1) x.goals y) (supply : Supply) :
    ((t.arguments 0 inner).toList supply).1 = [] := by
  obtain ⟨u, n, hu, happlied, hnone⟩ := hx inner hinner
  have hbelow := Term.below_of_ground hground 0
  rw [Term.isGround, List.isEmpty_iff] at hground
  have habove : ((1 : Perm ℕ) • inner).IsAbove n := fun v hv ↦ by
    rw [one_smul, hground] at hv
    cases hv
  have hempty := Substitution.below_empty 0
  have hframed : Framed n ((1 : Perm ℕ) • Substitution.empty) u :=
    ⟨rfl, hu.consistent, Substitution.acyclic_empty, hu.acyclic,
      fun v hv ↦ Substitution.get?_of_below hu.below hv, fun v t _ ht ↦ by cases ht⟩
  have hmatch := t.allArguments_relocated (x.node.depth + 1) x.goals n (.root 0) inner rfl
    (Position.below_root 0 0) (Nat.le_refl n) (fun i hi ↦ by omega) hempty hbelow hframed habove
    hadmits
  have hposition : (Position.root 0).relocate 1 (x.node.depth + 1) x.goals =
      ⟨0, x.node.depth + 1, x.goals⟩ := by
    simp [Position.relocate, Position.root]
  rw [hposition, one_smul, hnone] at hmatch
  have hroot : Substitution.empty.apply inner = inner := by
    conv => rhs; rw [← happlied]
    exact Term.bind_congr fun v hv ↦ by
      rw [hground] at hv
      cases hv
  have hfound := argumentsUnder_alike (t := t) (m := 0) hempty Substitution.acyclic_empty hbelow
    (Nat.zero_le supply.freeVariable)
  rw [hroot, List.forall₂_nil_right_iff.mp hmatch] at hfound
  exact List.forall₂_nil_right_iff.mp hfound

theorem Fruitless.justified {π : Perm ℕ} {x z : Placed} (hz : t.Fruitless z)
    (hgoals : x.goals = z.goals.map (π • ·)) (hnode : x.node.form = π • z.node.form) :
    t.Justified x := by
  intro inner hinner hground hadmits supply
  have hrule : x.node.rule = π • z.node.rule := by
    rw [← Argument.form_rule, hnode, Argument.smul_rule, Argument.form_rule]
  have hdepth : x.node.depth = z.node.depth := by
    rw [← Argument.form_depth, hnode, Argument.smul_depth, Argument.form_depth]
  have hinner' : z.node.rule.consequent = .app (.op .notProvable) [inner] := by
    have hbelow := Term.below_of_ground hground 0
    have hconsequent : π • z.node.rule.consequent = π • .app (.op .notProvable) [inner] := by
      rw [Term.smul_app, List.map_singleton, Below.iff_forall.mp hbelow π (by simp), ← hinner,
        hrule]
      rfl
    exact MulAction.injective π hconsequent
  refine hz.root hinner' hground (fun y hy ↦ ?_) supply
  obtain ⟨hfits, hvariant⟩ := hadmits y hy
  refine ⟨hdepth ▸ hfits, fun g hg ↦ ?_⟩
  rw [← Term.isVariant_smul_left π]
  exact hvariant _ (hgoals ▸ List.mem_map_of_mem hg)

/-- Every node of an argument, or of an argument in a list, has a place, and whatever stands for a
negation as failure there is justified. -/
theorem absences_justified (t : Theory) (hs : s.Acyclic) (hconsistent : s.isConsistent = true)
    (hbindings : ∀ x ∈ s.bindings, x.1.id < n ∧ ∀ v ∈ x.2.occurrences, v.id < n) (m : Threshold)
    {supply : Supply} (hn : n ≤ supply.freeVariable) :
    (∀ e : Term, (∀ v ∈ e.occurrences, v.id < n) →
      ∀ a ∈ ((t.argumentsUnder s m e).toList supply).1,
        (∀ b ∈ a.subtree, ∃ x ∈ a.places [] s (s.apply e), x.node = b) ∧
          ∀ x ∈ a.places [] s (s.apply e), t.Justified x) ∧
    ∀ es : List Term, (∀ e ∈ es, ∀ v ∈ e.occurrences, v.id < n) →
      ∀ l ∈ ((lists (fun u e ↦ t.argumentsUnder u m e) es (.empty s)).toList supply).1,
        (∀ a ∈ l.arguments, ∀ b ∈ a.subtree,
          ∃ x ∈ Argument.placesAll [] s es l.arguments, x.node = b) ∧
          ∀ x ∈ Argument.placesAll [] s es l.arguments, t.Justified x := by
  have hbelow := below_of_consistent hconsistent hbindings
  have hstart : s.Usable n := ⟨hbelow, hs, hconsistent⟩
  refine ⟨fun e he a ha ↦ ⟨a.mem_places [] s _, fun x hx ↦ ?_⟩,
    fun es hes l hl ↦ ⟨Argument.mem_placesAll (fun a _ ↦ a.mem_places) [] s es, fun x hx ↦ ?_⟩⟩
  · have he := Term.below_of_occurrences he
    have hgoal := Substitution.below_apply hbelow he
    obtain ⟨y, hy, π, hπ, hform⟩ := exists_of_forall₂ (argumentsUnder_alike hbelow hs he hn) a ha
    have hplaces := Argument.places_of_alike y.1 a hform [] s (s.apply e)
    rw [Below.iff_forall.mp hbelow π hπ, Below.iff_forall.mp hgoal π hπ] at hplaces
    obtain ⟨z, hz, hgoals, hnode⟩ := hplaces x hx
    have hfruitless := t.allArguments_fruitless (.root m) (s.apply e) s n (Position.below_root n m)
      hstart hgoal (Substitution.apply_idem hs e) y hy z hz
    exact hfruitless.justified hgoals hnode
  · have hes (e : Term) (he : e ∈ es) : Below n e := Term.below_of_occurrences (hes e he)
    obtain ⟨y, hy, π, hπ, hform⟩ := exists_of_forall₂ (listsUnder_alike hbelow hs hes hn) l hl
    have harguments : l.arguments.map Argument.form = y.1.arguments.map (π • ·.form) := by
      rw [show l.arguments.map Argument.form = (π • y.1.form).arguments from
        congrArg ArgumentList.arguments hform]
      exact List.map_map
    have hplaces := Argument.placesAll_of_alike harguments
      (fun b _ a ↦ Argument.places_of_alike b a) [] s es
    rw [Below.iff_forall.mp hbelow π hπ, map_smul_eq_self_iff.mpr fun e he ↦
      Below.iff_forall.mp (hes e he) π hπ] at hplaces
    obtain ⟨z, hz, hgoals, hnode⟩ := hplaces x hx
    refine Fruitless.justified
      (places_of_mem_allLists (fun e he u k hk hu w hw ↦ ?_) hstart y hy z hz) hgoals hnode
    have hgoal := Substitution.below_apply hu.below ((hes e he).mono hk)
    have happlied := Substitution.apply_idem hu.acyclic e
    obtain ⟨hle, husable⟩ := allArguments_usable (Position.below_root k m) hu hgoal happlied w hw
    exact ⟨hle, husable,
      t.allArguments_fruitless (.root m) _ u k (Position.below_root k m) hu hgoal happlied w hw⟩

theorem exists_denial {as : List Argument} {inner : Term} (hinner : inner.isExact = true)
    (h : as.any (fun a ↦ a.subtree.any fun b ↦
      (Term.app (.op .notProvable) [inner]).same b.rule.consequent) = true) :
    ∃ a ∈ as, ∃ b ∈ a.subtree, b.rule.consequent = .app (.op .notProvable) [inner] := by
  obtain ⟨a, ha, h⟩ := List.any_eq_true.mp h
  obtain ⟨b, hb, h⟩ := List.any_eq_true.mp h
  have hexact : (Term.app (.op .notProvable) [inner]).isExact = true :=
    Term.consistsOf_app.mpr ⟨rfl, by simpa using hinner⟩
  exact ⟨a, ha, b, hb, (Term.eq_of_same hexact h).symm⟩

def innocence : Theory :=
  ofRules .weakestLink
    [.plain (.const "innocent") [.app (.op .notProvable) [.const "guilty"]] .one,
      .plain (.const "guilty") [.const "proven"] .one]

theorem innocence_justified :
    (∃ a ∈ ((innocence.arguments 0 (.const "innocent")).toList ⟨0, 1⟩).1,
      ∃ x ∈ a.places [] .empty (.const "innocent"),
        x.node.rule.consequent = .app (.op .notProvable) [.const "guilty"] ∧
        (∀ y ∈ innocence.lookups (innocence.maxDepth + 1) (.root 0) .empty (.const "guilty") 0,
          innocence.Admits (x.node.depth + 1) x.goals y) ∧
        ((innocence.arguments 0 (.const "guilty")).toList ⟨0, 1⟩).1 = []) ∧
    ∀ l ∈ ((innocence.argumentLists 0 [.const "innocent", .const "innocent"]).toList ⟨0, 1⟩).1,
      ∀ x ∈ Argument.placesAll [] .empty [.const "innocent", .const "innocent"] l.arguments,
        innocence.Justified x := by
  have hadmits : ∀ a ∈ ((innocence.arguments 0 (.const "innocent")).toList ⟨0, 1⟩).1,
      ∀ x ∈ a.places [] .empty (.const "innocent"),
        ∀ y ∈ innocence.lookups (innocence.maxDepth + 1) (.root 0) .empty (.const "guilty") 0,
          innocence.Admits (x.node.depth + 1) x.goals y := by
    decide +kernel
  have hjustified := absences_justified (n := 0) innocence Substitution.acyclic_empty rfl
    (by decide) 0 (Nat.zero_le (⟨0, 1⟩ : Supply).freeVariable)
  obtain ⟨a, ha, b, hb, hdenial⟩ :
      ∃ a ∈ ((innocence.arguments 0 (.const "innocent")).toList ⟨0, 1⟩).1, ∃ b ∈ a.subtree,
        b.rule.consequent = .app (.op .notProvable) [.const "guilty"] :=
    exists_denial (by decide) (by decide +kernel)
  obtain ⟨hplaced, hright⟩ := hjustified.1 (.const "innocent") (by decide) a ha
  obtain ⟨x, hx, rfl⟩ := hplaced b hb
  refine ⟨⟨a, ha, x, hx, hdenial, hadmits a ha x hx, ?_⟩, fun l hl ↦ ?_⟩
  · exact hright x hx (.const "guilty") hdenial rfl (hadmits a ha x hx) ⟨0, 1⟩
  · exact (hjustified.2 [.const "innocent", .const "innocent"] (by decide) l hl).2

def selfDenial : Theory :=
  ofRules .weakestLink [.plain (.const "p") [.app (.op .notProvable) [.const "p"]] .one]

def shallow : Theory where
  store := (ofRules .weakestLink [.plain (.const "q") [.app (.op .notProvable) [.const "p"]] .one,
    .plain (.const "p") [] .one]).store
  valuation := .weakestLink
  maxDepth := 1

/-- Both guards can hide an argument for what is denied, although there is one from the root. -/
theorem guards_hide :
    (∃ a ∈ ((selfDenial.arguments 0 (.const "p")).toList ⟨0, 1⟩).1, ∃ b ∈ a.subtree,
      b.rule.consequent = .app (.op .notProvable) [.const "p"] ∧
        ((selfDenial.arguments 0 (.const "p")).toList ⟨0, 1⟩).1 ≠ []) ∧
    ∃ a ∈ ((shallow.arguments 0 (.const "q")).toList ⟨0, 1⟩).1, ∃ b ∈ a.subtree,
      b.rule.consequent = .app (.op .notProvable) [.const "p"] ∧
        ((shallow.arguments 0 (.const "p")).toList ⟨0, 1⟩).1 ≠ [] := by
  have hnonempty {as : List Argument} (h : as.isEmpty = false) : as ≠ [] := by
    rintro rfl
    cases h
  constructor
  · obtain ⟨a, ha, b, hb, hdenial⟩ : ∃ a ∈ ((selfDenial.arguments 0 (.const "p")).toList ⟨0, 1⟩).1,
        ∃ b ∈ a.subtree, b.rule.consequent = .app (.op .notProvable) [.const "p"] :=
      exists_denial (by decide) (by decide +kernel)
    exact ⟨a, ha, b, hb, hdenial, hnonempty (by decide +kernel)⟩
  · obtain ⟨a, ha, b, hb, hdenial⟩ : ∃ a ∈ ((shallow.arguments 0 (.const "q")).toList ⟨0, 1⟩).1,
        ∃ b ∈ a.subtree, b.rule.consequent = .app (.op .notProvable) [.const "p"] :=
      exists_denial (by decide) (by decide +kernel)
    exact ⟨a, ha, b, hb, hdenial, hnonempty (by decide +kernel)⟩

end Theory

end Argumentation
