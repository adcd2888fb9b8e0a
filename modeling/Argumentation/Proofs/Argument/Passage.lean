import Argumentation.Proofs.Argument.Denials
import Argumentation.Proofs.Argument.Renumbering
import Argumentation.Proofs.Dialogue.Record

namespace Argumentation

open Equiv (Perm)

namespace Supply

instance : LE Supply :=
  ⟨fun s t ↦ s.freeVariable ≤ t.freeVariable ∧ s.freeArgument ≤ t.freeArgument⟩

theorem le_refl (s : Supply) : s ≤ s :=
  ⟨Nat.le_refl _, Nat.le_refl _⟩

theorem le_trans {s t u : Supply} (h : s ≤ t) (h' : t ≤ u) : s ≤ u :=
  ⟨h.1.trans h'.1, h.2.trans h'.2⟩

def takeVariables (s : Supply) (n : ℕ) : Supply :=
  { s with freeVariable := s.freeVariable + n }

def takeArgument (s : Supply) : Supply :=
  { s with freeArgument := s.freeArgument + 1 }

theorem le_takeVariables (s : Supply) (n : ℕ) : s ≤ s.takeVariables n :=
  ⟨Nat.le_add_right _ n, Nat.le_refl _⟩

theorem le_takeArgument (s : Supply) : s ≤ s.takeArgument :=
  ⟨Nat.le_refl _, Nat.le_succ _⟩

theorem exists_le (s t : Supply) : ∃ u, s ≤ u ∧ t ≤ u :=
  ⟨⟨max s.freeVariable t.freeVariable, max s.freeArgument t.freeArgument⟩,
    ⟨Nat.le_max_left _ _, Nat.le_max_left _ _⟩, ⟨Nat.le_max_right _ _, Nat.le_max_right _ _⟩⟩

end Supply

/-- What numbers of variables and of arguments become on the way from one session to another.
Numbers that were taken become numbers that were taken. -/
structure Passage where
  vars : Perm ℕ
  args : Perm ℕ
  source : Supply
  target : Supply
  vars_lt : ∀ i < source.freeVariable, vars i < target.freeVariable
  args_lt : ∀ i < source.freeArgument, args i < target.freeArgument

namespace Passage

/-- More numbers were taken, and what the earlier ones become is as before. -/
structure Extends (w w' : Passage) : Prop where
  vars : ∀ i < w.source.freeVariable, w'.vars i = w.vars i
  args : ∀ i < w.source.freeArgument, w'.args i = w.args i
  source : w.source ≤ w'.source
  target : w.target ≤ w'.target

instance : LE Passage :=
  ⟨Extends⟩

variable {u v w : Passage}

theorem le_refl (w : Passage) : w ≤ w :=
  ⟨fun _ _ ↦ rfl, fun _ _ ↦ rfl, Supply.le_refl _, Supply.le_refl _⟩

theorem le_trans (h : u ≤ v) (h' : v ≤ w) : u ≤ w where
  vars i hi := (h'.vars i (hi.trans_le h.source.1)).trans (h.vars i hi)
  args i hi := (h'.args i (hi.trans_le h.source.2)).trans (h.args i hi)
  source := Supply.le_trans h.source h'.source
  target := Supply.le_trans h.target h'.target

def keeping {s t : Supply} (h : s ≤ t) : Passage where
  vars := 1
  args := 1
  source := s
  target := t
  vars_lt _ hi := hi.trans_le h.1
  args_lt _ hi := hi.trans_le h.2

def withTarget (w : Passage) {t : Supply} (h : w.target ≤ t) : Passage where
  vars := w.vars
  args := w.args
  source := w.source
  target := t
  vars_lt i hi := (w.vars_lt i hi).trans_le h.1
  args_lt i hi := (w.args_lt i hi).trans_le h.2

theorem le_withTarget {t : Supply} (h : w.target ≤ t) : w ≤ w.withTarget h :=
  ⟨fun _ _ ↦ rfl, fun _ _ ↦ rfl, Supply.le_refl _, h⟩

/-- New variables in the first session become the new ones in the second. -/
theorem exists_takeVariables (w : Passage) (n : ℕ) : ∃ w', w ≤ w' ∧
    w'.source = w.source.takeVariables n ∧ w'.target = w.target.takeVariables n ∧
      ∀ i < n, w'.vars (w.source.freeVariable + i) = w.target.freeVariable + i := by
  obtain ⟨ρ, hρ, hnew⟩ := exists_extension w.vars_lt n
  refine ⟨⟨ρ, w.args, w.source.takeVariables n, w.target.takeVariables n, fun i hi ↦ ?_,
    w.args_lt⟩, ⟨hρ, fun _ _ ↦ rfl, w.source.le_takeVariables n, w.target.le_takeVariables n⟩, rfl,
    rfl, hnew⟩
  rcases Nat.lt_or_ge i w.source.freeVariable with hold | hold
  · rw [hρ i hold]
    exact (w.vars_lt i hold).trans_le (Nat.le_add_right _ n)
  · obtain ⟨j, rfl⟩ := Nat.exists_eq_add_of_le hold
    have hj := Nat.lt_of_add_lt_add_left hi
    rw [hnew j hj]
    exact Nat.add_lt_add_left hj _

theorem exists_takeArgument (w : Passage) : ∃ w', w ≤ w' ∧ w'.source = w.source.takeArgument ∧
    w'.target = w.target.takeArgument ∧
      w'.args w.source.freeArgument = w.target.freeArgument := by
  obtain ⟨ρ, hρ, hnew⟩ := exists_extension w.args_lt 1
  have hnew : ρ w.source.freeArgument = w.target.freeArgument := hnew 0 Nat.one_pos
  refine ⟨⟨w.vars, ρ, w.source.takeArgument, w.target.takeArgument, w.vars_lt,
    fun i hi ↦ ?_⟩, ⟨fun _ _ ↦ rfl, hρ, w.source.le_takeArgument, w.target.le_takeArgument⟩, rfl,
    rfl, hnew⟩
  rcases Nat.lt_succ_iff_lt_or_eq.mp hi with hi | rfl
  · rw [hρ i hi]
    exact (w.args_lt i hi).trans (Nat.lt_succ_self _)
  · rw [hnew]
    exact Nat.lt_succ_self _

end Passage

namespace Term

variable (π : Perm ℕ) (t : Term)

theorem negation?_smul : (π • t).negation? = t.negation?.map (π • ·) := by
  cases t with
  | app g xs => cases g <;> simp [negation?]
  | _ => rfl

theorem isLiteral_smul : (π • t).isLiteral = t.isLiteral := by
  cases t with
  | app g xs => cases g <;> simp [isLiteral]
  | _ => rfl

end Term

namespace Argument

theorem smul_subs (π : Perm ℕ) (a : Argument) : (π • a).subs = a.subs.map (π • ·) := by
  cases a
  rw [smul_mk]

/-- The numbers of an argument and of its variables were taken. -/
structure Fits (s : Supply) (a : Argument) : Prop where
  ids : ∀ n ∈ a.subtree, n.id < s.freeArgument
  below : Below s.freeVariable a

namespace Fits

variable {s t : Supply} {a b : Argument}

theorem id_lt (h : a.Fits s) : a.id < s.freeArgument :=
  h.ids a a.self_mem_subtree

theorem mono (h : a.Fits s) (hst : s ≤ t) : a.Fits t :=
  ⟨fun n hn ↦ (h.ids n hn).trans_le hst.2, h.below.mono hst.1⟩

theorem rule (h : a.Fits s) : Below s.freeVariable a.rule :=
  h.below.map fun π ↦ (a.smul_rule π).symm

theorem substitution (h : a.Fits s) : Below s.freeVariable a.substitution :=
  h.below.map fun π ↦ (a.smul_substitution π).symm

theorem claim (h : a.Fits s) : Below s.freeVariable a.claim :=
  h.below.map fun π ↦ (a.smul_claim π).symm

theorem subs (h : a.Fits s) (hb : b ∈ a.subs) : b.Fits s := by
  refine ⟨fun n hn ↦ h.ids n (mem_subtree.mpr (.inr ⟨b, hb, hn⟩)), ?_⟩
  refine Below.iff_forall.mpr fun π hπ ↦ ?_
  have hsubs := congrArg Argument.subs (Below.iff_forall.mp h.below π hπ)
  rw [smul_subs] at hsubs
  exact map_smul_eq_self_iff.mp hsubs b hb

theorem of_mem_subtree (h : a.Fits s) {n : Argument} (hn : n ∈ a.subtree) : n.Fits s := by
  induction a using Argument.induction with
  | step a ih =>
    rcases mem_subtree.mp hn with rfl | ⟨b, hb, hnb⟩
    · exact h
    · exact ih b hb (h.subs hb) hnb

theorem node {id : ArgumentId} {r : Rule} {u : Substitution} {subs : List Argument}
    (hid : id < s.freeArgument) (hr : Below s.freeVariable r) (hu : Below s.freeVariable u)
    (hsubs : ∀ b ∈ subs, b.Fits s) (strength : Degree) (depth : ℕ) :
    (Argument.mk id r u subs strength depth).Fits s := by
  refine ⟨fun n hn ↦ ?_, Below.iff_forall.mpr fun π hπ ↦ ?_⟩
  · rcases mem_subtree.mp hn with rfl | ⟨b, hb, hnb⟩
    · exact hid
    · exact (hsubs b hb).ids n hnb
  · have hmap : subs.map (π • ·) = subs := map_smul_eq_self_iff.mpr fun b hb ↦
      Below.iff_forall.mp (hsubs b hb).below π hπ
    rw [smul_mk, Below.iff_forall.mp hr π hπ, Below.iff_forall.mp hu π hπ, hmap]

end Fits

end Argument

namespace Passage

mutual

def carry (w : Passage) : Argument → Argument
  | ⟨id, rule, substitution, subs, strength, depth⟩ =>
    ⟨w.args id, w.vars • rule, w.vars • substitution, carryAll w subs, strength,
      depth⟩

def carryAll (w : Passage) : List Argument → List Argument
  | [] => []
  | a :: as => carry w a :: carryAll w as

end

variable {v w : Passage}

theorem carryAll_eq_map (w : Passage) (as : List Argument) : w.carryAll as = as.map w.carry := by
  induction as with
  | nil => rfl
  | cons a as ih => rw [carryAll, ih, List.map_cons]

theorem carry_mk (id : ArgumentId) (r : Rule) (s : Substitution) (subs : List Argument)
    (strength : Degree) (depth : ℕ) : w.carry ⟨id, r, s, subs, strength, depth⟩ =
      ⟨w.args id, w.vars • r, w.vars • s, subs.map w.carry, strength, depth⟩ := by
  rw [carry, carryAll_eq_map]

section Projections

variable (w) (a b : Argument)

@[simp]
theorem carry_id : (w.carry a).id = w.args a.id := by
  cases a
  rfl

@[simp]
theorem carry_rule : (w.carry a).rule = w.vars • a.rule := by
  cases a
  rfl

@[simp]
theorem carry_strength : (w.carry a).strength = a.strength := by
  cases a
  rfl

@[simp]
theorem carry_subs : (w.carry a).subs = a.subs.map w.carry := by
  cases a
  rw [carry_mk]

@[simp]
theorem carry_claim : (w.carry a).claim = w.vars • a.claim := by
  cases a
  exact (Substitution.smul_apply w.vars _ _).symm

@[simp]
theorem carry_ruleName? : (w.carry a).ruleName? = a.ruleName?.map (w.vars • ·) := by
  obtain ⟨id, r, s, subs, strength, depth⟩ := a
  show (r.name.map (w.vars • ·)).map (w.vars • s).apply =
    (r.name.map s.apply).map (w.vars • ·)
  simp only [Option.map_map, Function.comp_def, Substitution.smul_apply]

theorem carry_form : (w.carry a).form = w.vars • a.form := by
  induction a using Argument.induction with
  | step a ih =>
    obtain ⟨id, r, s, subs, strength, depth⟩ := a
    have hsubs : (subs.map w.carry).map Argument.form =
        (subs.map Argument.form).map (w.vars • ·) := by
      rw [List.map_map, List.map_map]
      exact List.map_congr_left ih
    rw [carry_mk, Argument.form_mk, Argument.form_mk, Argument.smul_mk, hsubs]

theorem carry_levels : (w.carry a).levels = a.levels.map (List.map w.carry) := by
  induction a using Argument.induction with
  | step a ih =>
    obtain ⟨id, r, s, subs, strength, depth⟩ := a
    have hall : Argument.levelsAll (subs.map w.carry) =
        (Argument.levelsAll subs).map (List.map w.carry) := by
      induction subs with
      | nil => rfl
      | cons b subs ihsubs =>
        rw [List.map_cons, Argument.levelsAll, Argument.levelsAll, ih b (.head _),
          ihsubs fun c hc ↦ ih c (.tail _ hc), Argument.joinLevels_map]
    rw [carry_mk, Argument.levels, hall, Argument.levels, List.map_cons, List.map_singleton,
      carry_mk]

theorem carry_subtree : (w.carry a).subtree = a.subtree.map w.carry := by
  rw [Argument.subtree, carry_levels, Argument.subtree, List.map_flatten]

-- Numbers matter to similarity, but only as far as two of them are the same.
@[simp]
theorem isSimilar_carry : (w.carry a).isSimilar (w.carry b) = a.isSimilar b := by
  have hall (as bs : List Argument)
      (ih : ∀ a ∈ as, ∀ b, (w.carry a).isSimilar (w.carry b) = a.isSimilar b) :
      Argument.areSimilar (as.map w.carry) (bs.map w.carry) = Argument.areSimilar as bs := by
    induction as generalizing bs with
    | nil => rfl
    | cons a as ihas =>
      cases bs with
      | nil => rfl
      | cons b bs =>
        rw [List.map_cons, List.map_cons, Argument.areSimilar, Argument.areSimilar, ih a (.head _),
          ihas bs fun c hc ↦ ih c (.tail _ hc)]
  induction a using Argument.induction generalizing b with
  | step a ih =>
    have hid : (w.args a.id == w.args b.id) = (a.id == b.id) := by
      rw [Bool.eq_iff_iff, beq_iff_eq, beq_iff_eq, w.args.injective.eq_iff]
    rw [Argument.isSimilar_eq, Argument.isSimilar_eq, carry_subs, carry_subs, hall _ _ ih, carry_id,
      carry_id, hid, carry_claim, carry_claim, Term.isVariant_smul, List.length_map,
      List.length_map, carry_rule, carry_rule]
    rfl

theorem denies_carry (t : Term) : (w.carry a).denies (w.vars • t) = a.denies t := by
  simp only [Argument.denies, carry_claim, Term.isLiteral_smul, Term.negation?_smul,
    Option.any_map, Term.isVariant_smul]

theorem rebuts_carry (restricted : Bool) :
    (w.carry a).rebuts restricted (w.carry b) = a.rebuts restricted b := by
  simp only [Argument.rebuts, carry_strength, carry_claim, denies_carry, carry_rule]
  rfl

theorem undercuts_carry : (w.carry a).undercuts (w.carry b) = a.undercuts b := by
  simp only [Argument.undercuts, carry_ruleName?, Option.any_map, denies_carry, carry_rule]
  rfl

@[simp]
theorem attacks_carry (restricted : Bool) :
    (w.carry a).attacks restricted (w.carry b) = a.attacks restricted b := by
  have hon (n : Argument) : (w.carry a).attackOn? restricted (w.carry n) =
      a.attackOn? restricted n := by
    rw [Argument.attackOn?, Argument.attackOn?, undercuts_carry, rebuts_carry]
  rw [Bool.eq_iff_iff, Argument.attacks_iff, Argument.attacks_iff, carry_subtree]
  simp only [List.mem_map, exists_exists_and_eq_and, hon]

end Projections

/-- An argument whose numbers were taken is carried as before when more of them are. -/
theorem carry_congr (h : v ≤ w) {a : Argument} (ha : a.Fits v.source) : w.carry a = v.carry a := by
  induction a using Argument.induction with
  | step a ih =>
    have hsubs : a.subs.map w.carry = a.subs.map v.carry :=
      List.map_congr_left fun b hb ↦ ih b hb (ha.subs hb)
    obtain ⟨id, r, s, subs, strength, depth⟩ := a
    rw [carry_mk, carry_mk, h.args id ha.id_lt, ha.rule.smul_eq h.vars,
      ha.substitution.smul_eq h.vars, hsubs]

theorem fits_carry {a : Argument} (ha : a.Fits w.source) : (w.carry a).Fits w.target := by
  have hbelow {β : Type} [MulAction (Perm ℕ) β] {x : β} (hx : Below w.source.freeVariable x) :
      Below w.target.freeVariable (w.vars • x) := by
    refine Below.iff_forall.mpr fun π hπ ↦ ?_
    rw [← mul_smul]
    exact hx.smul_eq fun i hi ↦ hπ _ (w.vars_lt i hi)
  induction a using Argument.induction with
  | step a ih =>
    obtain ⟨id, r, s, subs, strength, depth⟩ := a
    rw [carry_mk]
    refine .node (w.args_lt id ha.id_lt) (hbelow ha.rule) (hbelow ha.substitution) ?_ strength depth
    intro c hc
    obtain ⟨b, hb, rfl⟩ := List.mem_map.mp hc
    exact ih b hb (ha.subs hb)

theorem carry_keeping {s t : Supply} (h : s ≤ t) (a : Argument) : (keeping h).carry a = a := by
  induction a using Argument.induction with
  | step a ih =>
    obtain ⟨id, r, u, subs, strength, depth⟩ := a
    rw [carry_mk, List.map_congr_left ih, List.map_id']
    simp only [keeping, Perm.coe_one, id_eq, one_smul]

def carryAttack (w : Passage) (attack : Attack) : Attack :=
  ⟨attack.kind, w.carry attack.target⟩

def carryEntry (w : Passage) (e : AttackerEntry) : AttackerEntry :=
  ⟨w.carry e.attacker, w.carryAttack e.attack⟩

def carryAttackers (w : Passage) (found : Attackers) : Attackers :=
  ⟨found.successful.map w.carryEntry, found.unsuccessful.map w.carry⟩

theorem denials_carry (w : Passage) (a : Argument) :
    (w.carry a).denials = a.denials.map fun (g, attack) ↦ (w.vars • g, w.carryAttack attack) := by
  simp only [Argument.denials, carry_subtree, List.flatMap_map, List.map_flatMap]
  congr 1
  funext node
  have hclaim : (if node.strength = .one then none else (w.carry node).claim.negation?) =
      (if node.strength = .one then none else node.claim.negation?).map (w.vars • ·) := by
    rw [carry_claim, Term.negation?_smul]
    split <;> rfl
  have hname : (if (w.carry node).rule.isDefeasible then
        (w.carry node).ruleName?.bind Term.negation? else none) =
      (if node.rule.isDefeasible then node.ruleName?.bind Term.negation? else none).map
        (w.vars • ·) := by
    have hdefeasible : (w.vars • node.rule).isDefeasible = node.rule.isDefeasible := rfl
    rw [carry_rule, carry_ruleName?, hdefeasible]
    split
    · cases node.ruleName? with
      | none => rfl
      | some name => exact Term.negation?_smul w.vars name
    · rfl
  rw [carry_strength, hclaim, hname]
  cases (if node.strength = .one then none else node.claim.negation?) <;>
    cases (if node.rule.isDefeasible then node.ruleName?.bind Term.negation? else none) <;> rfl

theorem succeeds_carry (arena : Arena) (w : Passage) (a : Argument) (attack : Attack) :
    arena.succeeds (w.carry a) (w.carryAttack attack) = arena.succeeds a attack := by
  obtain ⟨kind, target⟩ := attack
  cases kind with
  | rebut => exact w.rebuts_carry a target arena.restricted
  | undercut => exact w.undercuts_carry a target

theorem enter_carry (arena : Arena) (w : Passage) (attack : Attack) (found : Attackers)
    (a : Argument) : arena.enter (w.carryAttack attack) (w.carryAttackers found) (w.carry a) =
      w.carryAttackers (arena.enter attack found a) := by
  have hany : ((w.carryAttackers found).successful.any fun e ↦ e.attacker.isSimilar (w.carry a)) =
      found.successful.any fun e ↦ e.attacker.isSimilar a := by
    rw [carryAttackers, List.any_map]
    congr 1
    funext e
    exact w.isSimilar_carry e.attacker a
  unfold Arena.enter
  rw [succeeds_carry, hany]
  split
  · simp only [carryAttackers, List.map_append, List.map_singleton]
  split
  · rfl
  · simp only [carryAttackers, List.map_append, List.map_singleton, carryEntry]

end Passage

end Argumentation
