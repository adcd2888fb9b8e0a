import Argumentation.Proofs.Argument.Agreement
import Argumentation.Proofs.Argument.Passage
import Mathlib.Data.List.Forall2

namespace Argumentation

namespace Flow

/-- The flows take numbers at the same times, and their elements are related under the passages of
the moments in which they are drawn. In between, more numbers may be taken for something else. -/
inductive Twins {α β : Type} (R : Passage → α → β → Prop) : Passage → Flow α → Flow β → Prop
  | done (w : Passage) : Twins R w .done .done
  | yield {w : Passage} {a : α} {b : β} {f : Unit → Flow α} {g : Unit → Flow β} : R w a b →
      (∀ w', w ≤ w' → Twins R w' (f ()) (g ())) → Twins R w (.yield a f) (.yield b g)
  | takeVariables {w w' : Passage} {n : ℕ} {f : ℕ → Flow α} {g : ℕ → Flow β} : w ≤ w' →
      w'.source = w.source.takeVariables n → w'.target = w.target.takeVariables n →
      Twins R w' (f w.source.freeVariable) (g w.target.freeVariable) →
      Twins R w (.takeVariables n f) (.takeVariables n g)
  | takeArgument {w w' : Passage} {f : ℕ → Flow α} {g : ℕ → Flow β} : w ≤ w' →
      w'.source = w.source.takeArgument → w'.target = w.target.takeArgument →
      Twins R w' (f w.source.freeArgument) (g w.target.freeArgument) →
      Twins R w (.takeArgument f) (.takeArgument g)

namespace Twins

variable {α β γ δ : Type} {R : Passage → α → β → Prop} {Q : Passage → γ → δ → Prop} {w : Passage}
  {f : Flow α} {g : Flow β}

theorem pure {a : α} {b : β} (h : R w a b) : Twins R w (.pure a) (.pure b) :=
  .yield h fun w' _ ↦ .done w'

theorem append {k : Unit → Flow α} {l : Unit → Flow β} (h : Twins R w f g)
    (hk : ∀ w', w ≤ w' → Twins R w' (k ()) (l ())) : Twins R w (f.append k) (g.append l) := by
  induction h with
  | done w => exact hk w (Passage.le_refl w)
  | yield hab _ ih =>
    exact .yield hab fun w' hw ↦ ih w' hw fun w'' hw' ↦ hk w'' (Passage.le_trans hw hw')
  | takeVariables hw hs ht _ ih =>
    exact .takeVariables hw hs ht (ih fun w'' hw' ↦ hk w'' (Passage.le_trans hw hw'))
  | takeArgument hw hs ht _ ih =>
    exact .takeArgument hw hs ht (ih fun w'' hw' ↦ hk w'' (Passage.le_trans hw hw'))

theorem bind {k : α → Flow γ} {l : β → Flow δ} (h : Twins R w f g)
    (hk : ∀ w' a b, w ≤ w' → R w' a b → Twins Q w' (k a) (l b)) :
    Twins Q w (f.bind k) (g.bind l) := by
  induction h with
  | done w => exact .done w
  | yield hab _ ih =>
    refine (hk _ _ _ (Passage.le_refl _) hab).append fun w' hw ↦ ih w' hw ?_
    exact fun w'' a b hw' ↦ hk w'' a b (Passage.le_trans hw hw')
  | takeVariables hw hs ht _ ih =>
    exact .takeVariables hw hs ht (ih fun w'' a b hw' ↦ hk w'' a b (Passage.le_trans hw hw'))
  | takeArgument hw hs ht _ ih =>
    exact .takeArgument hw hs ht (ih fun w'' a b hw' ↦ hk w'' a b (Passage.le_trans hw hw'))

theorem concat {ι : Type} {is : List ι} {k : ι → Flow α} {l : ι → Flow β}
    (h : ∀ i ∈ is, ∀ w', w ≤ w' → Twins R w' (k i) (l i)) :
    Twins R w (.concat is k) (.concat is l) := by
  induction is generalizing w with
  | nil => exact .done w
  | cons i is ih =>
    refine (h i (.head _) w (Passage.le_refl w)).append fun w' hw ↦ ih fun j hj w'' hw' ↦ ?_
    exact h j (.tail _ hj) w'' (Passage.le_trans hw hw')

theorem ifEmpty {k : Flow γ} {l : Flow δ} (h : Twins R w f g)
    (hk : ∀ w', w ≤ w' → Twins Q w' k l) : Twins Q w (f.ifEmpty k) (g.ifEmpty l) := by
  induction h with
  | done w => exact hk w (Passage.le_refl w)
  | yield => exact .done _
  | takeVariables hw hs ht _ ih =>
    exact .takeVariables hw hs ht (ih fun w'' hw' ↦ hk w'' (Passage.le_trans hw hw'))
  | takeArgument hw hs ht _ ih =>
    exact .takeArgument hw hs ht (ih fun w'' hw' ↦ hk w'' (Passage.le_trans hw hw'))

/-- Drawn to their ends, the flows have as many elements, one related to the other. -/
theorem toList (hR : ∀ w w' a b, w ≤ w' → R w a b → R w' a b) (h : Twins R w f g) :
    ∃ w', w ≤ w' ∧ w'.source = (f.toList w.source).2 ∧ w'.target = (g.toList w.target).2 ∧
      List.Forall₂ (R w') (f.toList w.source).1 (g.toList w.target).1 := by
  induction h with
  | done w => exact ⟨w, Passage.le_refl w, rfl, rfl, .nil⟩
  | yield hab _ ih =>
    obtain ⟨w', hw, hs, ht, hall⟩ := ih _ (Passage.le_refl _)
    exact ⟨w', hw, hs, ht, .cons (hR _ _ _ _ hw hab) hall⟩
  | takeVariables hw hs ht _ ih =>
    obtain ⟨w', hw', hs', ht', hall⟩ := ih
    rw [hs] at hs' hall
    rw [ht] at ht' hall
    exact ⟨w', Passage.le_trans hw hw', hs', ht', hall⟩
  | takeArgument hw hs ht _ ih =>
    obtain ⟨w', hw', hs', ht', hall⟩ := ih
    rw [hs] at hs' hall
    rw [ht] at ht' hall
    exact ⟨w', Passage.le_trans hw hw', hs', ht', hall⟩

end Twins

end Flow

namespace ArgumentList

/-- The numbers in a list were taken. -/
structure Fits (s : Supply) (l : ArgumentList) : Prop where
  arguments : ∀ a ∈ l.arguments, a.Fits s
  substitution : Below s.freeVariable l.substitution

theorem Fits.mono {s t : Supply} {l : ArgumentList} (h : l.Fits s) (hst : s ≤ t) : l.Fits t :=
  ⟨fun a ha ↦ (h.arguments a ha).mono hst, h.substitution.mono hst.1⟩

end ArgumentList

namespace Passage

def carryList (w : Passage) (l : ArgumentList) : ArgumentList :=
  ⟨l.arguments.map w.carry, w.vars • l.substitution⟩

def Carries (w : Passage) (a b : Argument) : Prop :=
  a.Fits w.source ∧ b = w.carry a

def CarriesList (w : Passage) (l m : ArgumentList) : Prop :=
  l.Fits w.source ∧ m = w.carryList l

theorem Carries.mono (w w' : Passage) (a b : Argument) (hw : w ≤ w') (h : w.Carries a b) :
    w'.Carries a b :=
  ⟨h.1.mono hw.source, h.2.trans (carry_congr hw h.1).symm⟩

theorem carryList_congr {v w : Passage} (h : v ≤ w) {l : ArgumentList} (hl : l.Fits v.source) :
    w.carryList l = v.carryList l := by
  rw [carryList, carryList, hl.substitution.smul_eq h.vars,
    List.map_congr_left fun a ha ↦ carry_congr h (hl.arguments a ha)]

theorem CarriesList.mono (w w' : Passage) (l m : ArgumentList) (hw : w ≤ w')
    (h : w.CarriesList l m) : w'.CarriesList l m :=
  ⟨h.1.mono hw.source, h.2.trans (carryList_congr hw h.1).symm⟩

end Passage

namespace Theory

open Argumentation.Flow (Twins)

open Passage (Carries CarriesList)

variable {t : Theory} {w : Passage} {p : Position} {s : Substitution} {goal : Term}

theorem evaluated_twins (hs : Below w.source.freeVariable s)
    (hgoal : Below w.source.freeVariable goal) :
    Twins Carries w (.evaluated p goal s)
      (.evaluated (w.vars • p) (w.vars • goal) (w.vars • s)) := by
  obtain ⟨w', hw, hsource, htarget, hnew⟩ := w.exists_takeArgument
  refine .takeArgument hw hsource htarget (.pure ⟨.node ?_ ?_ ?_ (by simp) _ _, ?_⟩)
  · rw [hsource]
    exact Nat.lt_succ_self _
  · refine Below.iff_forall.mpr fun π hπ ↦ ?_
    rw [Rule.smul_evaluated, Below.iff_forall.mp (hgoal.mono hw.source.1) π hπ]
  · exact hs.mono hw.source.1
  · rw [Passage.carry_mk, hnew, Rule.smul_evaluated, hgoal.smul_eq hw.vars, hs.smul_eq hw.vars]
    rfl

def TwinSearch (w : Passage) (found found' : Substitution → Term → Flow Argument) : Prop :=
  ∀ w', w ≤ w' → ∀ u e, Below w'.source.freeVariable u → Below w'.source.freeVariable e →
    Twins Carries w' (found u e) (found' (w'.vars • u) (w'.vars • e))

theorem lists_twins {found found' : Substitution → Term → Flow Argument}
    (h : TwinSearch w found found') {es : List Term}
    (hes : ∀ e ∈ es, Below w.source.freeVariable e) {l : ArgumentList} (hl : l.Fits w.source) :
    Twins CarriesList w (lists found es l)
      (lists found' (es.map (w.vars • ·)) (w.carryList l)) := by
  induction es generalizing w l with
  | nil => exact .pure ⟨hl, rfl⟩
  | cons e es ih =>
    obtain ⟨he, hes⟩ := List.forall_mem_cons.mp hes
    refine (h w (Passage.le_refl w) _ e hl.substitution he).bind fun w' a b hw hab ↦ ?_
    obtain ⟨ha, rfl⟩ := hab
    have hl' := hl.mono hw.source
    have hpush : (w.carryList l).push (w'.carry a) = w'.carryList (l.push a) := by
      rw [← Passage.carryList_congr hw hl]
      cases a
      simp only [Passage.carryList, ArgumentList.push, List.map_append, List.map_singleton,
        Passage.carry_mk]
    have hmap : es.map (w.vars • ·) = es.map (w'.vars • ·) :=
      List.map_congr_left fun x hx ↦ ((hes x hx).smul_eq hw.vars).symm
    rw [hpush, hmap]
    refine ih (fun w'' hw' ↦ h w'' (Passage.le_trans hw hw'))
      (fun x hx ↦ (hes x hx).mono hw.source.1) ⟨?_, ha.substitution⟩
    intro c hc
    rcases List.mem_append.mp hc with hc | hc
    · exact hl'.arguments c hc
    · rw [List.mem_singleton.mp hc]
      exact ha

theorem conclude_twins {r : Rule} (hr : Below w.source.freeVariable r) {l : ArgumentList}
    (hl : l.Fits w.source) :
    Twins Carries w (t.conclude p r l)
      (t.conclude (w.vars • p) (w.vars • r) (w.carryList l)) := by
  have hstrength : t.valuation.strength (w.vars • r) (w.carryList l).arguments =
      t.valuation.strength r l.arguments := by
    refine t.valuation.strength_congr rfl ?_
    simp only [Passage.carryList, List.map_map, Function.comp_def, Passage.carry_strength]
  rw [conclude, conclude, hstrength, Position.smul_threshold]
  split
  · obtain ⟨w', hw, hsource, htarget, hnew⟩ := w.exists_takeArgument
    have hl' := hl.mono hw.source
    refine .takeArgument hw hsource htarget (.pure ⟨.node ?_ (hr.mono hw.source.1) ?_ ?_ _ _, ?_⟩)
    · rw [hsource]
      exact Nat.lt_succ_self _
    · exact hl'.substitution
    · exact hl'.arguments
    · rw [Passage.carry_mk, hnew, ← Passage.carryList_congr hw hl, hr.smul_eq hw.vars]
      rfl
  · exact .done w

theorem byRule_twins {below : Position → Substitution → Term → Flow Argument}
    (hbelow : ∀ w' q, w ≤ w' → Below w'.source.freeVariable q →
      TwinSearch w' (below q) (below (w'.vars • q)))
    (hp : Below w.source.freeVariable p) (hs : Below w.source.freeVariable s)
    (hgoal : Below w.source.freeVariable goal) (r : Rule) :
    Twins Carries w (t.byRule below p s goal r)
      (t.byRule below (w.vars • p) (w.vars • s) (w.vars • goal) r) := by
  rw [byRule, byRule, Position.smul_threshold]
  split
  · exact .done w
  -- The instances made in both sessions are the same, carried along.
  obtain ⟨w', hw, hsource, htarget, hnew⟩ := w.exists_takeVariables r.allVars.length
  refine .takeVariables hw hsource htarget ?_
  have hrenamed := r.smul_renameApart w'.vars hnew
  have hr : Below w'.source.freeVariable (r.renameApart w.source.freeVariable) := by
    rw [hsource]
    exact r.below_renameApart w.source.freeVariable
  have hs' := hs.mono hw.source.1
  have hgoal' := hgoal.mono hw.source.1
  have hp' := hp.mono hw.source.1
  have hunified := Substitution.below_unify hs' (Rule.below_consequent hr) hgoal'
  have hunify : (w'.vars • s).unify (w'.vars • r.renameApart w.source.freeVariable).consequent
      (w'.vars • goal) = w'.vars • s.unify (r.renameApart w.source.freeVariable).consequent goal :=
    (Substitution.smul_unify w'.vars s _ goal).symm
  dsimp only
  rw [← hrenamed, ← hs.smul_eq hw.vars, ← hgoal.smul_eq hw.vars, ← hp.smul_eq hw.vars, hunify,
    Substitution.isConsistent_smul, Rule.smul_antecedent, ← Position.smul_below]
  split
  · exact .done w'
  · have hq := Position.below_below hp' hgoal' (t.subThreshold p.threshold)
    have hlists := lists_twins (hbelow w' _ hw hq) (Rule.below_antecedent hr)
      (l := .empty (s.unify (r.renameApart w.source.freeVariable).consequent goal))
      ⟨by simp [ArgumentList.empty], hunified⟩
    refine hlists.bind fun w'' l m hw' hlm ↦ ?_
    obtain ⟨hl, rfl⟩ := hlm
    rw [← hp'.smul_eq hw'.vars, ← hr.smul_eq hw'.vars]
    exact conclude_twins (hr.mono hw'.source.1) hl

theorem settle_twins {lookup attempt lookup' attempt' : Term → Flow Argument}
    (hp : Below w.source.freeVariable p) (hs : Below w.source.freeVariable s)
    (hgoal : Below w.source.freeVariable goal)
    (hlookup : ∀ literal, Below w.source.freeVariable literal →
      Twins Carries w (lookup literal) (lookup' (w.vars • literal)))
    (hattempt : ∀ inner, Below w.source.freeVariable inner →
      Twins Carries w (attempt inner) (attempt' (w.vars • inner))) :
    Twins Carries w (settle lookup attempt p s goal)
      (settle lookup' attempt' (w.vars • p) (w.vars • s) (w.vars • goal)) := by
  rw [settle_eq, settle_eq, settlement_smul]
  cases hsettlement : settlement s goal with
  | unsolved => exact .done w
  | evaluated u => exact evaluated_twins (isBelow_of_settlement hs hgoal hsettlement) hgoal
  | lookup literal => exact hlookup literal (isBelow_of_settlement hs hgoal hsettlement)
  | absent inner =>
    refine (hattempt inner (isBelow_of_settlement hs hgoal hsettlement)).ifEmpty fun w' hw ↦ ?_
    rw [← hp.smul_eq hw.vars, ← hgoal.smul_eq hw.vars, ← hs.smul_eq hw.vars]
    exact evaluated_twins (hs.mono hw.source.1) (hgoal.mono hw.source.1)

theorem beyond_twins (n : ℕ) (hp : Below w.source.freeVariable p)
    (hs : Below w.source.freeVariable s) (hgoal : Below w.source.freeVariable goal) :
    Twins Carries w (beyond n p s goal)
      (beyond n (w.vars • p) (w.vars • s) (w.vars • goal)) := by
  induction n generalizing p goal with
  | zero => exact .done w
  | succ n ih =>
    refine settle_twins hp hs hgoal (fun _ _ ↦ .done w) fun inner hinner ↦ ?_
    rw [← Substitution.smul_apply, ← Position.smul_below]
    exact ih (Position.below_below hp hgoal 0) (Substitution.below_apply hs hinner)

/-- The search for a goal in one session is that in the other one, carried along. -/
theorem solve_twins (levels : ℕ) (hp : Below w.source.freeVariable p)
    (hs : Below w.source.freeVariable s) (hgoal : Below w.source.freeVariable goal) :
    Twins Carries w (t.solve levels p s goal)
      (t.solve levels (w.vars • p) (w.vars • s) (w.vars • goal)) := by
  induction levels generalizing w p s goal with
  | zero =>
    rw [solve, solve, Term.negationsAsFailure_smul]
    exact beyond_twins _ hp hs hgoal
  | succ levels ih =>
    have hbelow (w' : Passage) (q : Position) (hq : Below w'.source.freeVariable q) :
        TwinSearch w' (fun u e ↦ t.solve levels q u (u.apply e))
          (fun u e ↦ t.solve levels (w'.vars • q) u (u.apply e)) := by
      intro w'' hw u e hu he
      dsimp only
      rw [← Substitution.smul_apply, ← hq.smul_eq hw.vars]
      exact ih (hq.mono hw.source.1) hu (Substitution.below_apply hu he)
    refine settle_twins hp hs hgoal (fun literal hliteral ↦ ?_) fun inner hinner ↦ ?_
    · rw [Position.repeats_smul, RuleStore.candidates_smul]
      split
      · exact .done w
      · refine .concat fun r _ w' hw ↦ ?_
        rw [← hp.smul_eq hw.vars, ← hs.smul_eq hw.vars, ← hliteral.smul_eq hw.vars]
        exact byRule_twins (fun w'' q _ ↦ hbelow w'' q) (hp.mono hw.source.1) (hs.mono hw.source.1)
          (hliteral.mono hw.source.1) r
    · exact hbelow w _ (Position.below_below hp hgoal 0) w (Passage.le_refl w) s inner hs hinner

theorem arguments_twins (t : Theory) (m : Threshold) (hgoal : Below w.source.freeVariable goal) :
    Twins Carries w (t.arguments m goal) (t.arguments m (w.vars • goal)) := by
  have happlied := Substitution.below_apply (Substitution.below_empty w.source.freeVariable) hgoal
  have hsolve := solve_twins (t := t) (t.maxDepth + 1) (Position.below_root _ m)
    (Substitution.below_empty w.source.freeVariable) happlied
  rw [Substitution.smul_apply] at hsolve
  exact hsolve

theorem argumentLists_twins (t : Theory) (m : Threshold) {es : List Term}
    (hes : ∀ e ∈ es, Below w.source.freeVariable e) :
    Twins CarriesList w (t.argumentLists m es) (t.argumentLists m (es.map (w.vars • ·))) := by
  refine lists_twins (fun w' hw u e hu he ↦ ?_) hes ⟨by simp [ArgumentList.empty],
    Substitution.below_empty _⟩
  have hsolve := solve_twins (t := t) (t.maxDepth + 1) (Position.below_root _ m) hu
    (Substitution.below_apply hu he)
  rw [Substitution.smul_apply] at hsolve
  exact hsolve

theorem argumentLists_twins_keeping (t : Theory) (m : Threshold) {es : List Term} {s s' : Supply}
    (h : s ≤ s') (hes : ∀ e ∈ es, Below s.freeVariable e) :
    Twins CarriesList (.keeping h) (t.argumentLists m es) (t.argumentLists m es) := by
  have hkept : es.map ((Passage.keeping h).vars • ·) = es :=
    map_smul_eq_self_iff.mpr fun e _ ↦ one_smul (Equiv.Perm ℕ) e
  have hlists := t.argumentLists_twins m
    (show ∀ e ∈ es, Below (Passage.keeping h).source.freeVariable e from hes)
  rwa [hkept] at hlists

end Theory

end Argumentation
