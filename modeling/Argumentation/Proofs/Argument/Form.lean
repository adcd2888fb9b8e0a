import Argumentation.Dialogue.Session
import Mathlib.Data.List.Basic

namespace Argumentation

namespace Argument

mutual

def form : Argument → Argument
  | ⟨_, rule, substitution, subs, strength, depth⟩ =>
    ⟨0, rule, substitution, formAll subs, strength, depth⟩

def formAll : List Argument → List Argument
  | [] => []
  | a :: as => form a :: formAll as

end

theorem formAll_eq_map (as : List Argument) : formAll as = as.map form := by
  induction as with
  | nil => rfl
  | cons a as ih => rw [formAll, ih, List.map_cons]

@[simp]
theorem form_rule (a : Argument) : a.form.rule = a.rule := by cases a; rfl

@[simp]
theorem form_substitution (a : Argument) : a.form.substitution = a.substitution := by cases a; rfl

@[simp]
theorem form_subs (a : Argument) : a.form.subs = a.subs.map form := by
  cases a
  exact formAll_eq_map _

@[simp]
theorem form_strength (a : Argument) : a.form.strength = a.strength := by cases a; rfl

@[simp]
theorem form_depth (a : Argument) : a.form.depth = a.depth := by cases a; rfl

@[simp]
theorem form_claim (a : Argument) : a.form.claim = a.claim := by cases a; rfl

@[simp]
theorem form_ruleName? (a : Argument) : a.form.ruleName? = a.ruleName? := by cases a; rfl

theorem joinLevels_map {α β : Type} (f : α → β) (l m : List (List α)) :
    joinLevels (l.map (List.map f)) (m.map (List.map f)) =
      (joinLevels l m).map (List.map f) := by
  induction l generalizing m with
  | nil => rfl
  | cons x l ih =>
    cases m with
    | nil => rfl
    | cons y m => simp only [List.map_cons, joinLevels, ih, List.map_append]

mutual

theorem levels_form : ∀ a : Argument, a.form.levels = a.levels.map (List.map form)
  | ⟨_, _, _, subs, _, _⟩ => by
    simp only [form, levels, levelsAll_formAll subs, List.map_cons, List.map_nil]

theorem levelsAll_formAll :
    ∀ as : List Argument, levelsAll (formAll as) = (levelsAll as).map (List.map form)
  | [] => rfl
  | a :: as => by
    simp only [formAll, levelsAll, levels_form a, levelsAll_formAll as, joinLevels_map]

end

theorem subtree_form (a : Argument) : a.form.subtree = a.subtree.map form := by
  rw [subtree, levels_form, subtree, List.map_flatten]

theorem denies_form (a : Argument) (t : Term) : a.form.denies t = a.denies t := by
  simp only [denies, form_claim]

theorem rebuts_form (restricted : Bool) (a b : Argument) :
    a.form.rebuts restricted b.form = a.rebuts restricted b := by
  simp only [rebuts, form_strength, form_rule, form_claim, denies_form]

theorem undercuts_form (a b : Argument) : a.form.undercuts b.form = a.undercuts b := by
  have hdenies : a.form.denies = a.denies := funext (denies_form a)
  simp only [undercuts, form_rule, form_ruleName?, hdenies]

theorem attackOn?_form (restricted : Bool) (a b : Argument) :
    a.form.attackOn? restricted b.form = a.attackOn? restricted b := by
  simp only [attackOn?, undercuts_form, rebuts_form]

theorem attacks_iff {restricted : Bool} {a b : Argument} :
    a.attacks restricted b = true ↔
      ∃ node ∈ b.subtree, (a.attackOn? restricted node).isSome = true := by
  simp only [attacks, deepAttack?, List.findSome?_isSome_iff, Option.isSome_map]

theorem attacks_form (restricted : Bool) (a b : Argument) :
    a.form.attacks restricted b.form = a.attacks restricted b := by
  rw [Bool.eq_iff_iff, attacks_iff, attacks_iff, subtree_form]
  simp only [List.mem_map, exists_exists_and_eq_and, attackOn?_form]

end Argument

def Attack.form (attack : Attack) : Attack :=
  ⟨attack.kind, attack.target.form⟩

theorem Argument.denials_form (a : Argument) :
    a.form.denials = a.denials.map fun denial ↦ (denial.1, denial.2.form) := by
  simp only [denials, subtree_form, List.flatMap_map, List.map_flatMap]
  congr 1
  funext node
  simp only [form_strength, form_claim, form_rule, form_ruleName?, List.map_append]
  cases (if node.strength = .one then none else node.claim.negation?) <;>
    cases (if node.rule.isDefeasible then node.ruleName?.bind Term.negation? else none) <;> rfl

theorem Arena.succeeds_form (arena : Arena) (a : Argument) (attack : Attack) :
    arena.succeeds a.form attack.form = arena.succeeds a attack := by
  cases attack with
  | mk kind target =>
    cases kind with
    | rebut => exact a.rebuts_form arena.restricted target
    | undercut => exact a.undercuts_form target

end Argumentation
