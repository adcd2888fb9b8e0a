import Argumentation.Proofs.Argument.Built
import Argumentation.Proofs.Argument.Strength
import Argumentation.Proofs.Argument.Renumbering
import Argumentation.Proofs.Dialogue.Record

namespace Argumentation

theorem Degree.meets_one_iff {d : Degree} : d.meets one.bits = true ↔ d = one := by
  constructor
  · intro h
    obtain ⟨bits, _, hle⟩ := d
    have hbits : bits = one.bits := Nat.le_antisymm hle (meets_iff.mp h)
    subst hbits
    rfl
  · intro h
    rw [h]
    exact meets_iff.mpr (Nat.le_refl _)

theorem Rule.isStrict_iff {r : Rule} : r.isStrict = true ↔ r.degree = .one :=
  decide_eq_true_iff

theorem Valuation.strength_eq_one_iff {v : Valuation} {r : Rule} {as : List Argument} :
    v.strength r as = .one ↔ r.isStrict = true ∧ ∀ a ∈ as, a.strength = .one := by
  rw [strength]
  split
  · rename_i hlast
    -- A defeasible rule is all that counts, and too weak.
    have hr : r.isStrict = false := by simpa [Rule.isDefeasible] using hlast.2
    rw [← Rule.isStrict_iff, hr]
    simp
  · simp only [← Degree.meets_one_iff, meets_foldl_min, Rule.isStrict_iff]

namespace Argument

variable {v : Valuation} {a n : Argument}

def IsStrict (a : Argument) : Prop :=
  ∀ n ∈ a.subtree, n.rule.isStrict = true

def IsValued (v : Valuation) (a : Argument) : Prop :=
  ∀ n ∈ a.subtree, n.strength = v.strength n.rule n.subs

theorem mem_subtree_trans {m : Argument} (hn : n ∈ a.subtree) (hm : m ∈ n.subtree) :
    m ∈ a.subtree := by
  induction a using Argument.induction with
  | step a ih =>
    rcases mem_subtree.mp hn with rfl | ⟨b, hb, hnb⟩
    · exact hm
    · exact mem_subtree.mpr (.inr ⟨b, hb, ih b hb hnb⟩)

/-- What holds of a node and throughout the arguments below it holds throughout. -/
theorem forall_mem_subtree {P : Argument → Prop} :
    (∀ n ∈ a.subtree, P n) ↔ P a ∧ ∀ b ∈ a.subs, ∀ n ∈ b.subtree, P n := by
  constructor
  · intro h
    exact ⟨h a a.self_mem_subtree, fun b hb n hn ↦ h n (mem_subtree.mpr (.inr ⟨b, hb, hn⟩))⟩
  · intro ⟨ha, hsubs⟩ n hn
    rcases mem_subtree.mp hn with rfl | ⟨b, hb, hnb⟩
    · exact ha
    · exact hsubs b hb n hnb

/-- An argument has the greatest strength just when all of its rules are strict. -/
theorem IsValued.strength_eq_one_iff (h : a.IsValued v) : a.strength = .one ↔ a.IsStrict := by
  induction a using Argument.induction with
  | step a ih =>
    obtain ⟨hstrength, hsubs⟩ := forall_mem_subtree.mp h
    rw [hstrength, Valuation.strength_eq_one_iff, IsStrict, forall_mem_subtree]
    exact and_congr_right fun _ ↦ forall₂_congr fun b hb ↦ ih b hb (hsubs b hb)

theorem IsValued.strength_of_mem (h : a.IsValued v) (hstrict : a.IsStrict) (hn : n ∈ a.subtree) :
    n.strength = .one := by
  have hvalued : n.IsValued v := fun m hm ↦ h m (mem_subtree_trans hn hm)
  exact hvalued.strength_eq_one_iff.mpr fun m hm ↦ hstrict m (mem_subtree_trans hn hm)

theorem IsValued.deepAttack?_eq_none (h : a.IsValued v) (hstrict : a.IsStrict) (restricted : Bool)
    (b : Argument) : b.deepAttack? restricted a = none := by
  rw [deepAttack?, List.findSome?_eq_none_iff]
  intro n hn
  have hdefeasible : n.rule.isDefeasible = false := by
    rw [Rule.isDefeasible, hstrict n hn, Bool.not_true]
  simp [attackOn?, undercuts, rebuts, hdefeasible, h.strength_of_mem hstrict hn]

end Argument

namespace Theory

variable {t : Theory}

def Builds (t : Theory) (a : Argument) : Prop :=
  ∃ p s goal, t.Built p s goal a

mutual

theorem Built.builds {p : Position} {s : Substitution} {goal : Term} {a : Argument} :
    t.Built p s goal a → ∀ n ∈ a.subtree, t.Builds n
  | .evaluated id h => Argument.forall_mem_subtree.mpr
      ⟨⟨p, s, goal, .evaluated id h⟩, fun b hb ↦ by cases hb⟩
  | .concluded id hliteral hr hunified hl => Argument.forall_mem_subtree.mpr
      ⟨⟨p, s, goal, .concluded id hliteral hr hunified hl⟩, hl.builds⟩

theorem BuiltList.builds {p : Position} {s : Substitution} {es : List Term} {l : ArgumentList} :
    t.BuiltList p s es l → ∀ a ∈ l.arguments, ∀ n ∈ a.subtree, t.Builds n
  | .empty _ _ => fun a ha ↦ by cases ha
  | .push hl ha => List.forall_mem_append.mpr ⟨hl.builds, List.forall_mem_singleton.mpr ha.builds⟩

end

theorem Builds.strength_eq {a : Argument} (h : t.Builds a) :
    a.strength = t.valuation.strength a.rule a.subs := by
  obtain ⟨p, s, goal, hbuilt⟩ := h
  cases hbuilt with
  | evaluated id h => exact (ite_self _).symm
  | concluded id _ _ _ _ => rfl

end Theory

end Argumentation
