import Argumentation.Proofs.Argument.Ledger
import Argumentation.Proofs.Term.Plain

namespace Argumentation

/-- Whether all rules are without variables, built-in operators and doubles. -/
def RuleStore.IsGround (s : RuleStore) : Prop :=
  ∀ r ∈ s.rules, r.isPlain = true

theorem RuleStore.rule?_of_mem_candidates {s : RuleStore} {goal : Term} {r : Rule}
    (h : r ∈ s.candidates goal) : s.rule? r.id = some r := by
  unfold candidates at h
  split at h
  · obtain ⟨id, -, hid⟩ := List.mem_filterMap.mp h
    have hr : r.id = id := by simpa using List.find?_some hid
    rw [hr]
    exact hid
  · cases h

theorem RuleStore.mem_of_rule? {s : RuleStore} {id : RuleId} {r : Rule} (h : s.rule? id = some r) :
    r ∈ s.rules :=
  List.mem_of_find?_eq_some h

theorem RuleStore.mem_of_mem_candidates {s : RuleStore} {goal : Term} {r : Rule}
    (h : r ∈ s.candidates goal) : r ∈ s.rules :=
  mem_of_rule? (rule?_of_mem_candidates h)

namespace ArgumentList

def Numbered (L : Ledger) (l : ArgumentList) : Prop :=
  l.substitution = .empty ∧ ∀ b ∈ l.arguments, b.NumberedBy L

theorem numbered_empty {L : Ledger} : Numbered L (.empty .empty) :=
  ⟨rfl, by simp [empty]⟩

theorem numbered_stable : Flow.Stable Numbered :=
  fun _ _ _ hLM hl ↦ ⟨hl.1, fun b hb ↦ (hl.2 b hb).mono hLM⟩

end ArgumentList

namespace Theory

def choices (f : Term → List Argument) : List Term → List (List Argument)
  | [] => [[]]
  | e :: es => (f e).flatMap fun a ↦ (choices f es).map (a :: ·)

def concluded (t : Theory) (p : Position) (r : Rule) (subs : List Argument) : List Argument :=
  let strength := t.valuation.strength r subs
  if strength.meets p.threshold then [⟨0, r, .empty, subs, strength, p.depth⟩] else []

def numeral (n : Number) (depth : Nat) : Argument :=
  ⟨0, .evaluated (.num n), .empty, [], .one, depth⟩

def forms (t : Theory) : (levels : Nat) → Position → Term → List Argument
  | _, p, .num n => [numeral n p.depth]
  | levels + 1, p, goal@(.app (.name _) _) =>
    if p.repeats goal then []
    else
      let below := t.forms levels (p.below goal (t.subThreshold p.threshold))
      (t.store.candidates goal).flatMap fun r ↦
        if r.degree.meets p.threshold && r.consequent.same goal then
          (choices below r.antecedent).flatMap (t.concluded p r)
        else []
  | _, _, _ => []

variable {t : Theory}

open Argument (NumberedBy form)

theorem mem_concluded {p : Position} {r : Rule} {subs : List Argument} {a : Argument} :
    a ∈ t.concluded p r subs ↔ (t.valuation.strength r subs).meets p.threshold = true ∧
      a = ⟨0, r, .empty, subs, t.valuation.strength r subs, p.depth⟩ := by
  simp only [concluded]
  split <;> simp_all

theorem exists_of_mem_choices {f : Term → List Argument} {es : List Term} {subs : List Argument}
    (h : subs ∈ choices f es) : ∀ b ∈ subs, ∃ e ∈ es, b ∈ f e := by
  induction es generalizing subs with
  | nil =>
    rw [choices, List.mem_singleton] at h
    simp [h]
  | cons e es ih =>
    obtain ⟨a, ha, subs', hsubs, rfl⟩ := by
      simpa only [choices, List.mem_flatMap, List.mem_map] using h
    intro b hb
    rcases List.mem_cons.mp hb with rfl | hb
    · exact ⟨e, .head _, ha⟩
    · obtain ⟨e', he', hbe⟩ := ih hsubs b hb
      exact ⟨e', .tail _ he', hbe⟩

theorem choices_mono {f g : Term → List Argument} {es : List Term}
    (h : ∀ e ∈ es, ∀ b ∈ f e, b ∈ g e) : choices f es ⊆ choices g es := by
  induction es with
  | nil => exact fun _ hsubs ↦ hsubs
  | cons e es ih =>
    intro subs hsubs
    simp only [choices, List.mem_flatMap, List.mem_map] at hsubs ⊢
    obtain ⟨a, ha, subs', hsubs, rfl⟩ := hsubs
    exact ⟨a, h e (.head _) a ha, subs', ih (fun e' he' ↦ h e' (.tail _ he')) hsubs, rfl⟩

/-- The forms for a goal are those of its value, if it is a number, and those that its candidate
rules conclude from choices one level further down. -/
theorem mem_forms {levels : Nat} {p : Position} {goal : Term} {a : Argument} :
    a ∈ t.forms levels p goal ↔ (∃ n, goal = .num n ∧ a = numeral n p.depth) ∨
      ∃ l r subs, levels = l + 1 ∧ goal.isLiteral = true ∧ p.repeats goal = false ∧
        r ∈ t.store.candidates goal ∧ r.degree.meets p.threshold = true ∧
        r.consequent.same goal = true ∧
        subs ∈ choices (t.forms l (p.below goal (t.subThreshold p.threshold))) r.antecedent ∧
        a ∈ t.concluded p r subs := by
  match levels, goal with
  | levels, .var v => cases levels <;> simp [forms, Term.isLiteral]
  | levels, .app (.op o) xs => cases levels <;> simp [forms, Term.isLiteral]
  | levels, .num n => cases levels <;> simp [forms, numeral, Term.isLiteral]
  | 0, .app (.name g) xs => simp [forms]
  | l + 1, .app (.name g) xs =>
    rw [forms]
    cases hrepeats : p.repeats (.app (.name g) xs) with
    | true => simp
    | false =>
      simp only [Bool.false_eq_true, if_false, List.mem_flatMap, List.mem_ite_nil_right,
        Bool.and_eq_true]
      constructor
      · rintro ⟨r, hr, ⟨hdegree, hsame⟩, subs, hsubs, ha⟩
        exact .inr ⟨l, r, subs, rfl, rfl, trivial, hr, hdegree, hsame, hsubs, ha⟩
      · rintro (⟨n, hn, -⟩ | ⟨l', r, subs, hl, -, -, hr, hdegree, hsame, hsubs, ha⟩)
        · cases hn
        · cases hl
          exact ⟨r, hr, ⟨hdegree, hsame⟩, subs, hsubs, ha⟩

theorem forms_threshold {levels : Nat} {m : Threshold} {depth : Nat} {ancestors : List Term}
    {goal : Term} {a : Argument} (h : a ∈ t.forms levels ⟨m, depth, ancestors⟩ goal) :
    a ∈ t.forms levels ⟨0, depth, ancestors⟩ goal := by
  induction levels using Nat.strongRecOn generalizing m depth ancestors goal a with
  | ind levels ih =>
    rcases mem_forms.mp h with hvalue | ⟨l, r, subs, rfl, hlit, hrep, hr, -, hsame, hsubs, ha⟩
    · exact mem_forms.mpr (.inl hvalue)
    · have hzero : t.subThreshold 0 = 0 := ite_self _
      refine mem_forms.mpr (.inr ⟨l, r, subs, rfl, hlit, hrep, hr, ?_, hsame, ?_, ?_⟩)
      · exact decide_eq_true (Nat.zero_le _)
      · rw [hzero]
        exact choices_mono (fun e he b hb ↦ ih l (Nat.lt_succ_self l) hb) hsubs
      · exact mem_concluded.mpr ⟨decide_eq_true (Nat.zero_le _), (mem_concluded.mp ha).2⟩

theorem numberedBy_stable : Flow.Stable NumberedBy :=
  fun _ _ _ hLM h ↦ h.mono hLM

theorem one_shows {L : Ledger} {subs : List Argument} (hsubs : ∀ b ∈ subs, NumberedBy L b)
    (r : Rule) (s : Substitution) (strength : Degree) (depth : Nat) :
    (Flow.takeArgument fun id ↦ .pure ⟨id, r, s, subs, strength, depth⟩).Shows NumberedBy form L
      [⟨0, r, s, subs.map form, strength, depth⟩] := by
  intro M hM
  refine ⟨⟨M.next, r, s, subs, strength, depth⟩, ?_⟩
  have hform (id : ArgumentId) : form ⟨id, r, s, subs, strength, depth⟩ =
      ⟨0, r, s, subs.map form, strength, depth⟩ := by
    rw [form, Argument.formAll_eq_map]
  rw [← hform M.next]
  refine Flow.Shows.pure (.intro (Nat.lt_succ_self _) ?_ fun b hb ↦ ?_)
  · simp only [Ledger.enter, if_true]
  · exact (hsubs b hb).mono (Ledger.le_trans hM (M.le_enter _))

theorem conclude_shows {L : Ledger} (p : Position) (r : Rule) {l : ArgumentList}
    (hl : l.substitution = .empty) (hargs : ∀ b ∈ l.arguments, NumberedBy L b) :
    (t.conclude p r l).Shows NumberedBy form L (t.concluded p r (l.arguments.map form)) := by
  have hstrength : t.valuation.strength r (l.arguments.map form) =
      t.valuation.strength r l.arguments := by
    simp only [Valuation.strength, List.foldl_map, Argument.form_strength]
  simp only [conclude, concluded, hstrength]
  split
  · rw [hl]
    exact one_shows hargs r _ _ _
  · rfl

theorem lists_shows {f : Term → List Argument} {arguments : Substitution → Term → Flow Argument}
    {es : List Term} {L : Ledger} {l : ArgumentList} (hl : ArgumentList.Numbered L l)
    (hsub : ∀ e, ∀ a ∈ f e, a.substitution = .empty)
    (hargs : ∀ e ∈ es, ∀ M, L ≤ M → (arguments .empty e).Shows NumberedBy form M (f e)) :
    (lists arguments es l).Shows ArgumentList.Numbered (·.arguments.map form) L
      ((choices f es).map (l.arguments.map form ++ ·)) := by
  induction es generalizing L l with
  | nil =>
    simp only [lists, choices, List.map_cons, List.append_nil, List.map_nil]
    exact Flow.Shows.pure hl
  | cons e es ih =>
    simp only [lists, choices, List.map_flatMap, List.map_map, hl.1]
    refine (hargs e (.head _) L (Ledger.le_refl L)).bind numberedBy_stable fun M a hM ha hmem ↦ ?_
    have hpush : ArgumentList.Numbered M (l.push a) := by
      refine ⟨?_, fun b hb ↦ ?_⟩
      · rw [ArgumentList.push, ← a.form_substitution]
        exact hsub e _ hmem
      · rcases List.mem_append.mp hb with hb | hb
        · exact (hl.2 b hb).mono hM
        · rw [List.mem_singleton.mp hb]
          exact ha
    have h := ih hpush fun e' he' M' hM' ↦ hargs e' (.tail _ he') M' (Ledger.le_trans hM hM')
    simpa only [ArgumentList.push, List.map_append, List.map_cons, List.map_nil, List.append_assoc,
      List.cons_append, List.nil_append, Function.comp_def] using h

def IsGoal (goal : Term) : Prop :=
  goal.isPlain = true ∨ goal.isLiteral = true ∧ goal.occurrences = []

theorem IsGoal.occurrences {goal : Term} (h : IsGoal goal) : goal.occurrences = [] :=
  h.elim (Term.occurrences_of_plain goal) And.right

theorem byRule_shows (hground : t.store.IsGround)
    {below : Position → Substitution → Term → Flow Argument} {f : Term → List Argument}
    {p : Position} {goal : Term} (hgoal : goal.occurrences = []) {r : Rule}
    (hr : r ∈ t.store.rules) {L : Ledger} (hsub : ∀ e, ∀ a ∈ f e, a.substitution = .empty)
    (hbelow : ∀ e, e.isPlain = true → ∀ M, L ≤ M →
      (below (p.below goal (t.subThreshold p.threshold)) .empty e).Shows NumberedBy form M (f e)) :
    (t.byRule below p .empty goal r).Shows NumberedBy form L
      (if r.degree.meets p.threshold && r.consequent.same goal then
        (choices f r.antecedent).flatMap (t.concluded p r) else []) := by
  have hplain := hground r hr
  obtain ⟨hc, ha, -⟩ := Rule.isPlain_iff.mp hplain
  rw [Term.arePlain_iff] at ha
  have hsame := Term.same_iff_of_plain _ goal hc
  unfold byRule
  cases hdegree : r.degree.meets p.threshold with
  | false => rfl
  | true =>
    intro base
    simp only [Rule.renameApart_of_plain hplain]
    rcases Substitution.unify_of_plain .empty hc hgoal rfl with ⟨heq, hunify⟩ | ⟨hne, hunify⟩
    · rw [hunify, hsame.mpr heq]
      have hlists := lists_shows (L := L) ArgumentList.numbered_empty hsub fun e he ↦
        hbelow e (ha e he)
      simp only [ArgumentList.empty, List.map_nil, List.nil_append, List.map_id'] at hlists
      have hbind : ((lists (below (p.below goal (t.subThreshold p.threshold))) r.antecedent
          (.empty .empty)).bind (t.conclude p r)).Shows NumberedBy form L
            ((choices f r.antecedent).flatMap (t.concluded p r)) :=
        hlists.bind ArgumentList.numbered_stable fun M l hM hl hmem ↦ conclude_shows p r hl.1 hl.2
      exact hbind
    · rw [hunify, Bool.eq_false_iff.mpr (mt hsame.mp hne)]
      rfl

theorem forms_substitution {levels : Nat} {p : Position} {goal : Term} {a : Argument}
    (h : a ∈ t.forms levels p goal) : a.substitution = .empty := by
  rcases mem_forms.mp h with ⟨n, -, rfl⟩ | ⟨l, r, subs, -, -, -, -, -, -, -, ha⟩
  · rfl
  · rw [(mem_concluded.mp ha).2]

/-- Over a ground store the arguments for a goal have the forms computed without substitutions. -/
theorem solve_shows (hground : t.store.IsGround) (levels : Nat) {p : Position} {goal : Term}
    (hgoal : IsGoal goal) (L : Ledger) :
    (t.solve levels p .empty goal).Shows NumberedBy form L (t.forms levels p goal) := by
  induction levels generalizing p goal L with
  | zero =>
    cases goal with
    | var v => cases hgoal.occurrences
    | num n => exact one_shows (by simp) _ _ _ _
    | app g xs =>
      cases g with
      | name f => rfl
      | op o => rcases hgoal with h | h <;> simp [Term.isPlain, Term.isLiteral] at h
  | succ levels ih =>
    cases goal with
    | var v => cases hgoal.occurrences
    | num n => exact one_shows (by simp) _ _ _ _
    | app g xs =>
      cases g with
      | op o => rcases hgoal with h | h <;> simp [Term.isPlain, Term.isLiteral] at h
      | name f =>
        simp only [solve, settle, forms]
        split
        · rfl
        · refine Flow.Shows.concat fun r hr M hM ↦ ?_
          have hmem := RuleStore.mem_of_mem_candidates hr
          refine byRule_shows hground hgoal.occurrences hmem (fun e a ↦ forms_substitution) ?_
          intro e he M' hM'
          rw [Substitution.apply_of_plain _ he]
          exact ih (.inl he) M'

def listForms (t : Theory) (m : Threshold) (es : List Term) : List (List Argument) :=
  choices (fun e ↦ t.forms (t.maxDepth + 1) (.root m) (Substitution.empty.apply e)) es

theorem argumentLists_shows (hground : t.store.IsGround) (m : Threshold) {es : List Term}
    (hes : ∀ e ∈ es, e.isLiteral = true ∧ e.isGround = true) (L : Ledger) :
    (t.argumentLists m es).Shows ArgumentList.Numbered (·.arguments.map form) L
      (t.listForms m es) := by
  have hargs : ∀ e ∈ es, ∀ M, L ≤ M → (t.argumentsUnder .empty m e).Shows NumberedBy form M
      (t.forms (t.maxDepth + 1) (.root m) (Substitution.empty.apply e)) := by
    intro e he M hM
    obtain ⟨hlit, hocc⟩ := hes e he
    refine solve_shows hground _ (.inr ⟨Substitution.apply_isLiteral _ hlit, ?_⟩) M
    exact Substitution.apply_occurrences _ (List.isEmpty_iff.mp hocc)
  have hlists : (lists (fun s e ↦ t.argumentsUnder s m e) es (.empty .empty)).Shows
      ArgumentList.Numbered (·.arguments.map form) L ((t.listForms m es).map ([] ++ ·)) :=
    lists_shows ArgumentList.numbered_empty (fun e a ↦ forms_substitution) hargs
  simp only [List.nil_append, List.map_id'] at hlists
  exact hlists

end Theory

end Argumentation
