import Argumentation.Proofs.Argument.Similarity

namespace Argumentation

namespace Argument

theorem mem_flatten_joinLevels {α : Type} {l m : List (List α)} {a : α} :
    a ∈ (joinLevels l m).flatten ↔ a ∈ l.flatten ∨ a ∈ m.flatten := by
  induction l generalizing m with
  | nil => simp [joinLevels]
  | cons x l ih =>
    cases m with
    | nil => simp [joinLevels]
    | cons y m =>
      simp only [joinLevels, List.flatten_cons, List.mem_append, ih]
      grind

theorem mem_levelsAll {as : List Argument} {n : Argument} :
    n ∈ (levelsAll as).flatten ↔ ∃ a ∈ as, n ∈ a.subtree := by
  induction as with
  | nil => simp [levelsAll]
  | cons a as ih =>
    simp only [levelsAll, mem_flatten_joinLevels, ih, List.exists_mem_cons_iff, subtree]

theorem mem_subtree {a n : Argument} : n ∈ a.subtree ↔ n = a ∨ ∃ b ∈ a.subs, n ∈ b.subtree := by
  obtain ⟨_, _, _, subs, _, _⟩ := a
  simp only [subtree, levels, List.flatten_cons, List.singleton_append, List.mem_cons]
  rw [mem_levelsAll]
  rfl

/-- A denial is the contrary of the claim of a node that is not strict, or of the name of a
defeasible rule application. -/
theorem mem_denials {a : Argument} {g : Term} {attack : Attack} :
    (g, attack) ∈ a.denials ↔ ∃ node ∈ a.subtree,
      (node.strength ≠ .one ∧ node.claim.negation? = some g ∧ attack = ⟨.rebut, node⟩) ∨
      (node.rule.isDefeasible = true ∧ node.ruleName?.bind Term.negation? = some g ∧
        attack = ⟨.undercut, node⟩) := by
  simp only [denials, List.mem_flatMap, List.mem_append, Option.mem_toList, Option.map_eq_some_iff,
    Prod.mk.injEq]
  refine exists_congr fun node ↦ and_congr_right fun _ ↦ or_congr ?_ ?_
  · by_cases h : node.strength = .one <;> simp [h, eq_comm]
  · cases h : node.rule.isDefeasible <;> simp [eq_comm]

theorem denies_iff {a : Argument} {u : Term} (ha : a.claim.isPlain = true) :
    a.denies u = true ↔ a.claim.isLiteral = true ∧ u.negation? = some a.claim := by
  simp only [denies, Bool.and_eq_true, Option.any_eq_true, Term.isVariant_iff_of_plain ha,
    exists_eq_right']

theorem of_undercuts {a node : Argument} (ha : a.claim.isPlain = true)
    (h : a.undercuts node = true) :
    node.rule.isDefeasible = true ∧ node.ruleName?.bind Term.negation? = some a.claim := by
  simp only [undercuts, Bool.and_eq_true, Option.any_eq_true, denies_iff ha] at h
  obtain ⟨hdef, n, hn, -, hneg⟩ := h
  exact ⟨hdef, Option.bind_eq_some_iff.mpr ⟨n, hn, hneg⟩⟩

theorem of_rebuts {restricted : Bool} {a node : Argument} (ha : a.claim.isPlain = true)
    (h : a.rebuts restricted node = true) :
    node.strength ≠ .one ∧ node.claim.negation? = some a.claim := by
  simp only [rebuts, Bool.and_eq_true, bne_iff_ne, denies_iff ha] at h
  obtain ⟨⟨⟨hstrength, -⟩, -⟩, -, hneg⟩ := h
  exact ⟨hstrength, hneg⟩

end Argument

namespace Theory

variable {t : Theory}

theorem Shaped.subtree {depth : Nat} {a : Argument} (h : t.Shaped depth a) :
    ∀ n ∈ a.subtree, ∃ d, t.Shaped d n := by
  induction h with
  | value k depth =>
    intro n hn
    rcases Argument.mem_subtree.mp hn with rfl | ⟨b, hb, -⟩
    · exact ⟨depth, .value k depth⟩
    · simp [numeral] at hb
  | step hid hr hlit hsubs ih =>
    intro n hn
    rcases Argument.mem_subtree.mp hn with rfl | ⟨b, hb, hnb⟩
    · exact ⟨_, .step hid hr hlit hsubs⟩
    · exact ih b hb n hnb

theorem Shaped.ruleName?_isPlain {depth : Nat} {a : Argument} (h : t.Shaped depth a) {n : Term}
    (hn : a.ruleName? = some n) : n.isPlain = true := by
  cases h with
  | value k => cases hn
  | step hid hr hlit hsubs =>
    obtain ⟨name, hname, rfl⟩ := Option.map_eq_some_iff.mp hn
    have hplain := (Rule.isPlain_iff.mp hr).2.2 name hname
    rw [Substitution.apply_of_plain _ hplain]
    exact hplain

theorem Shaped.denials {depth : Nat} {a : Argument} (h : t.Shaped depth a) {g : Term}
    {attack : Attack} (hg : (g, attack) ∈ a.denials) :
    g.isPlain = true ∧ g.isLiteral = true := by
  obtain ⟨node, hnode, ⟨-, hneg, -⟩ | ⟨-, hneg, -⟩⟩ := Argument.mem_denials.mp hg
  all_goals obtain ⟨d, hshaped⟩ := h.subtree node hnode
  · exact Term.negation?_isPlain hshaped.claim_isPlain hneg
  · obtain ⟨n, hn, hneg⟩ := Option.bind_eq_some_iff.mp hneg
    exact Term.negation?_isPlain (hshaped.ruleName?_isPlain hn) hneg

end Theory

theorem Arena.attackOn?_isSome_iff {arena : Arena} {a node : Argument} :
    (a.attackOn? arena.restricted node).isSome = true ↔
      arena.succeeds a ⟨.undercut, node⟩ = true ∨ arena.succeeds a ⟨.rebut, node⟩ = true := by
  simp only [Argument.attackOn?, Arena.succeeds]
  grind

end Argumentation
