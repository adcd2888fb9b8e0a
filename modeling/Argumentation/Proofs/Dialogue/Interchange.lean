import Argumentation.Proofs.Argument.Derivation
import Argumentation.Proofs.Argument.Sources
import Argumentation.Proofs.Dialogue.Provenance
import Argumentation.Proofs.Preferred.Explanation
import Argumentation.Proofs.Term.Negation

namespace Argumentation

theorem Term.exists_negation?_of_isVariant {t u n : Term} (h : t.isVariant u = true)
    (hn : t.negation? = some n) : ∃ m, u.negation? = some m ∧ n.isVariant m = true := by
  obtain ⟨f, xs, rfl, rfl⟩ := exists_of_negation?_eq_some hn
  obtain ⟨ys, rfl, hpaired⟩ := isVariant_app_iff.mp (isVariant_symm h)
  exact ⟨_, rfl, isVariant_app_iff.mpr ⟨xs, rfl, isSome_pairAll_symm hpaired⟩⟩

namespace Argument

variable {a b c n : Argument} {t u : Term}

theorem denies_congr (h : a.claim.isVariant b.claim = true) (t : Term) :
    a.denies t = b.denies t := by
  rw [Bool.eq_iff_iff, ← Term.contradicts_iff_denies, ← Term.contradicts_iff_denies]
  refine exists_congr fun n ↦ and_congr_right fun _ ↦ ⟨fun ha ↦ ?_, fun hb ↦ ?_⟩
  · exact Term.isVariant_trans (Term.isVariant_symm h) ha
  · exact Term.isVariant_trans h hb

theorem denies_of_isVariant (h : t.isVariant u = true) (ht : c.denies t = true) :
    c.denies u = true := by
  obtain ⟨n, hn, hvariant⟩ := Term.contradicts_iff_denies.mpr ht
  obtain ⟨m, hm, hnm⟩ := Term.exists_negation?_of_isVariant h hn
  exact Term.contradicts_iff_denies.mp ⟨m, hm, Term.isVariant_trans hvariant hnm⟩

theorem denies_congr_right (h : t.isVariant u = true) (c : Argument) : c.denies t = c.denies u :=
  Bool.eq_iff_iff.mpr ⟨denies_of_isVariant h, denies_of_isVariant (Term.isVariant_symm h)⟩

/-- Arguments that attack the same roots and are rebutted at their own by the same arguments. -/
structure Interchangeable (a b : Argument) : Prop where
  strength : a.strength = b.strength
  degree : a.rule.degree = b.rule.degree
  denies : ∀ t, a.denies t = b.denies t
  denied : ∀ c : Argument, c.denies a.claim = c.denies b.claim

namespace Interchangeable

theorem refl (a : Argument) : a.Interchangeable a :=
  ⟨rfl, rfl, fun _ ↦ rfl, fun _ ↦ rfl⟩

theorem rebuts_left (h : a.Interchangeable b) (restricted : Bool) (n : Argument) :
    a.rebuts restricted n = b.rebuts restricted n := by
  simp only [rebuts, Rule.isDefeasible, Rule.isStrict, h.strength, h.degree, h.denies]

theorem undercuts_left (h : a.Interchangeable b) (n : Argument) :
    a.undercuts n = b.undercuts n := by
  have hdenies : a.denies = b.denies := funext h.denies
  rw [undercuts, undercuts, hdenies]

theorem rebuts_right (h : a.Interchangeable b) (restricted : Bool) (c : Argument) :
    c.rebuts restricted a = c.rebuts restricted b := by
  simp only [rebuts, Rule.isStrict, h.strength, h.degree, h.denied]

theorem deepAttack? (h : a.Interchangeable b) (restricted : Bool) (c : Argument) :
    a.deepAttack? restricted c = b.deepAttack? restricted c := by
  have hattackOn? : a.attackOn? restricted = b.attackOn? restricted := by
    funext n
    rw [attackOn?, attackOn?, h.undercuts_left, h.rebuts_left]
  rw [Argument.deepAttack?, Argument.deepAttack?, hattackOn?]

end Interchangeable

/-- The same rule concludes the same from similar arguments, up to variables. -/
structure Matches (a b : Argument) : Prop where
  rule : a.rule.id = b.rule.id
  claim : a.claim.isVariant b.claim = true
  subs : List.Forall₂ (fun x y ↦ x.isSimilar y = true) a.subs b.subs

theorem areSimilar_iff_forall₂ {as bs : List Argument} :
    as.length = bs.length ∧ areSimilar as bs = true ↔
      List.Forall₂ (fun x y ↦ x.isSimilar y = true) as bs := by
  induction as generalizing bs with
  | nil => cases bs <;> simp [areSimilar]
  | cons a as ih =>
    cases bs with
    | nil => simp
    | cons b bs =>
      rw [List.forall₂_cons, ← ih, areSimilar, Bool.and_eq_true, List.length_cons,
        List.length_cons, Nat.succ_inj]
      exact and_left_comm

theorem isSimilar_iff_matches : a.isSimilar b = true ↔ a.id = b.id ∨ a.Matches b := by
  simp only [isSimilar_eq, Bool.or_eq_true, Bool.and_eq_true, beq_iff_eq]
  refine or_congr_right ⟨?_, fun h ↦ ?_⟩
  · rintro ⟨⟨⟨hrule, hlength⟩, hclaim⟩, hsubs⟩
    exact ⟨hrule, hclaim, areSimilar_iff_forall₂.mp ⟨hlength, hsubs⟩⟩
  · obtain ⟨hlength, hsubs⟩ := areSimilar_iff_forall₂.mpr h.subs
    exact ⟨⟨⟨h.rule, hlength⟩, h.claim⟩, hsubs⟩

theorem isSimilar_symm (h : a.isSimilar b = true) : b.isSimilar a = true := by
  induction a using Argument.induction generalizing b with
  | step a ih =>
    rcases isSimilar_iff_matches.mp h with hid | hmatches
    · exact isSimilar_iff_matches.mpr (.inl hid.symm)
    · refine isSimilar_iff_matches.mpr (.inr ⟨hmatches.rule.symm,
        Term.isVariant_symm hmatches.claim, ?_⟩)
      have hback : List.Forall₂ (fun x (y : Argument) ↦ y.isSimilar x = true) a.subs b.subs :=
        forall₂_imp hmatches.subs ih
      exact hback.flip

end Argument

namespace Theory

variable {t : Theory} {L : Register Argument} {a b c n : Argument}

theorem Registered.sub (h : t.Registered L a) (hb : b ∈ a.subs) : t.Registered L b :=
  h.node (Argument.mem_subtree_of_mem_subs a.self_mem_subtree hb)

/-- A number is that of one argument, so it is only the rest of the comparison that can take
different arguments to be similar. -/
theorem Registered.isSimilar_iff_eq_or_matches (ha : t.Registered L a) (hb : t.Registered L b) :
    a.isSimilar b = true ↔ a = b ∨ a.Matches b := by
  refine Argument.isSimilar_iff_matches.trans (or_congr_left ⟨fun hid ↦ ?_, congrArg _⟩)
  have hsome : some a = some b := by
    rw [← ha.entered, ← hb.entered, hid]
  exact Option.some.inj hsome

theorem Registered.isSimilar_trans (ha : t.Registered L a) (hb : t.Registered L b)
    (hc : t.Registered L c) (hab : a.isSimilar b = true) (hbc : b.isSimilar c = true) :
    a.isSimilar c = true := by
  induction a using Argument.induction generalizing b c with
  | step a ih =>
    rcases (ha.isSimilar_iff_eq_or_matches hb).mp hab with rfl | hmatches
    · exact hbc
    rcases (hb.isSimilar_iff_eq_or_matches hc).mp hbc with rfl | hmatches'
    · exact hab
    refine Argument.isSimilar_iff_matches.mpr (.inr ⟨hmatches.rule.trans hmatches'.rule,
      Term.isVariant_trans hmatches.claim hmatches'.claim, ?_⟩)
    refine forall₂_trans (forall₂_mem hmatches.subs) (forall₂_mem hmatches'.subs) ?_
    rintro x hx y z ⟨-, hy, hxy⟩ ⟨-, hz, hyz⟩
    exact ih x hx (ha.sub hx) (hb.sub hy) (hc.sub hz) hxy hyz

variable (hstore : t.store.Reachable)

include hstore

theorem Registered.strength_eq_of_isSimilar (ha : t.Registered L a) (hb : t.Registered L b)
    (h : a.isSimilar b = true) : a.strength = b.strength := by
  induction a using Argument.induction generalizing b with
  | step a ih =>
    rcases (ha.isSimilar_iff_eq_or_matches hb).mp h with rfl | hmatches
    · rfl
    have hrule := (ha a a.self_mem_subtree).2
    have hrule' := (hb b b.self_mem_subtree).2
    rw [hrule.strength_eq, hrule'.strength_eq]
    refine t.valuation.strength_congr
      (hrule.sourced.degree_eq_of_id hstore hrule'.sourced hmatches.rule) ?_
    rw [← List.forall₂_eq_eq_eq, List.forall₂_map_left_iff, List.forall₂_map_right_iff]
    exact (forall₂_mem hmatches.subs).imp fun x y ⟨hx, hy, hxy⟩ ↦
      ih x hx (ha.sub hx) (hb.sub hy) hxy

theorem Registered.interchangeable (ha : t.Registered L a) (hb : t.Registered L b)
    (h : a.isSimilar b = true) : a.Interchangeable b := by
  rcases (ha.isSimilar_iff_eq_or_matches hb).mp h with rfl | hmatches
  · exact .refl a
  · refine ⟨ha.strength_eq_of_isSimilar hstore hb h, ?_, Argument.denies_congr hmatches.claim,
      Argument.denies_congr_right hmatches.claim⟩
    exact (ha a a.self_mem_subtree).2.sourced.degree_eq_of_id hstore
      (hb b b.self_mem_subtree).2.sourced hmatches.rule

theorem Registered.exists_interchangeable (ha : t.Registered L a) (hb : t.Registered L b)
    (h : a.isSimilar b = true) (hn : n ∈ a.subtree) : ∃ m ∈ b.subtree, n.Interchangeable m := by
  induction a using Argument.induction generalizing b with
  | step a ih =>
    rcases Argument.mem_subtree.mp hn with rfl | ⟨x, hx, hnx⟩
    · exact ⟨b, b.self_mem_subtree, ha.interchangeable hstore hb h⟩
    rcases (ha.isSimilar_iff_eq_or_matches hb).mp h with rfl | hmatches
    · exact ⟨n, hn, .refl n⟩
    · obtain ⟨y, hy, hxy⟩ := exists_of_forall₂ hmatches.subs x hx
      obtain ⟨m, hm, hnm⟩ := ih x hx (ha.sub hx) (hb.sub hy) hxy hnx
      exact ⟨m, Argument.mem_subtree.mpr (.inr ⟨y, hy, hm⟩), hnm⟩

theorem Registered.exists_rebuts (ha : t.Registered L a) (hb : t.Registered L b)
    (h : a.isSimilar b = true) {restricted : Bool} :
    (∃ n ∈ a.subtree, c.rebuts restricted n = true) →
      ∃ n ∈ b.subtree, c.rebuts restricted n = true := by
  rintro ⟨n, hn, hrebuts⟩
  obtain ⟨m, hm, hnm⟩ := ha.exists_interchangeable hstore hb h hn
  exact ⟨m, hm, hnm.rebuts_right restricted c ▸ hrebuts⟩

end Theory

variable {arena : Arena} {σ : Session} {flows : List (Flow ArgumentList)} {drawn : List Argument}

/-- Over a store that came about by its operations, similarity is an equivalence of the arguments
that a session has at hand. Similar ones are equally strong, attack the same arguments in the same
way, and are rebutted, at the root or below, by the same arguments. -/
theorem Session.Reachable.similar_interchangeable (hstore : arena.theory.store.Reachable)
    (h : σ.Reachable arena flows drawn) :
    (Equivalence fun a b : {a : Argument // σ.HoldsNode drawn a} ↦ a.1.isSimilar b.1 = true) ∧
    ∀ a b : Argument, σ.HoldsNode drawn a → σ.HoldsNode drawn b → a.isSimilar b = true →
      a.strength = b.strength ∧
      (∀ (restricted : Bool) (c : Argument),
        a.deepAttack? restricted c = b.deepAttack? restricted c) ∧
      ∀ (restricted : Bool) (c : Argument),
        (∃ n ∈ a.subtree, c.rebuts restricted n = true) ↔
          ∃ n ∈ b.subtree, c.rebuts restricted n = true := by
  obtain ⟨L, htraced⟩ := h.traced
  refine ⟨⟨fun a ↦ a.1.isSimilar_self, Argument.isSimilar_symm, ?_⟩, fun a b ha hb hab ↦ ?_⟩
  · intro a b c
    exact (htraced.of_holdsNode a.2).isSimilar_trans (htraced.of_holdsNode b.2)
      (htraced.of_holdsNode c.2)
  · have ha := htraced.of_holdsNode ha
    have hb := htraced.of_holdsNode hb
    have hinterchangeable := ha.interchangeable hstore hb hab
    refine ⟨hinterchangeable.strength, hinterchangeable.deepAttack?, fun restricted c ↦ ?_⟩
    exact ⟨ha.exists_rebuts hstore hb hab,
      hb.exists_rebuts hstore ha (Argument.isSimilar_symm hab)⟩

def universalStep : Arena where
  theory := .ofRules .weakestLink
    [.plain (.app (.name "p") [.var ⟨"X", 1⟩]) [.app (.name "q") [.var ⟨"X", 1⟩]] .half,
      .plain (.app (.name "q") [.var ⟨"Y", 2⟩]) [] .threeQuarters,
      .plain (.app (.name "~q") [.var ⟨"Z", 3⟩]) [] .threeQuarters]
  restricted := false

theorem universalStep_interchangeable : ∃ σ flows drawn a b,
    Session.Reachable universalStep σ flows drawn ∧ σ.HoldsNode drawn a ∧ σ.HoldsNode drawn b ∧
    a.id ≠ b.id ∧ a.isSimilar b = true ∧
    (Equivalence fun a b : {a : Argument // σ.HoldsNode drawn a} ↦ a.1.isSimilar b.1 = true) ∧
    a.strength = b.strength ∧
    (∀ (restricted : Bool) (c : Argument),
      a.deepAttack? restricted c = b.deepAttack? restricted c) ∧
    ∀ (restricted : Bool) (c : Argument), (∃ n ∈ a.subtree, c.rebuts restricted n = true) ↔
      ∃ n ∈ b.subtree, c.rebuts restricted n = true := by
  let goals : List Term := [.app (.name "p") [.var ⟨"U", 4⟩], .app (.name "p") [.var ⟨"V", 5⟩]]
  have hcheck : ((universalStep.theory.argumentLists 0 goals).next ⟨6, 1⟩).1.any (fun x ↦
      x.1.arguments.any fun a ↦ x.1.arguments.any fun b ↦ a.id != b.id && a.isSimilar b) =
        true := by
    decide +kernel
  obtain ⟨r, s, hnext⟩ : ∃ r s,
      (universalStep.theory.argumentLists 0 goals).next ⟨6, 1⟩ = (r, s) := ⟨_, _, rfl⟩
  rw [hnext] at hcheck
  obtain ⟨⟨l, rest⟩, rfl, hcheck⟩ := (Option.any_eq_true _ _).mp hcheck
  obtain ⟨a, ha, hcheck⟩ := List.any_eq_true.mp hcheck
  obtain ⟨b, hb, hcheck⟩ := List.any_eq_true.mp hcheck
  obtain ⟨hne, hsimilar⟩ := Bool.and_eq_true_iff.mp hcheck
  have hask : Session.Reachable universalStep ⟨.empty, ⟨6, 1⟩⟩
      [universalStep.theory.argumentLists 0 goals] [] := .ask 0 .empty goals (.fresh _)
  have hdrawn := hask.draw (.head _) hnext
  have hholds (c : Argument) (hc : c ∈ l.arguments) :
      Session.HoldsNode ⟨.empty, s⟩ (l.arguments ++ []) c :=
    ⟨c, .inl (List.mem_append_left _ hc), c.self_mem_subtree⟩
  have ha := hholds a ha
  have hb := hholds b hb
  have hstore : universalStep.theory.store.Reachable := Theory.ofRules_reachable _ _
  obtain ⟨hequivalence, hinterchange⟩ := hdrawn.similar_interchangeable hstore
  exact ⟨_, _, _, a, b, hdrawn, ha, hb, bne_iff_ne.mp hne, hsimilar, hequivalence,
    hinterchange a b ha hb hsimilar⟩

end Argumentation
