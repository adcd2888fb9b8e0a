import Argumentation.Document.Build
import Argumentation.Proofs.Rule.Basic
import Mathlib.Data.List.Pairwise

namespace Argumentation

/-- For two mentions: they are of the same variable just if they have the same name and it is not
the anonymous one. -/
def Variable.SharedByName (v w : Variable) : Prop :=
  v.id = w.id ↔ v.name = w.name ∧ v.name ≠ anonymous

instance : Std.Symm Variable.SharedByName where
  symm v w h := by
    unfold Variable.SharedByName at *
    rw [eq_comm, h, eq_comm]
    exact and_congr_right fun hname ↦ by rw [hname]

namespace Scope

variable {s : Scope} {base : ℕ} {vs : List Variable}

def mentionAll (s : Scope) : List String → List Variable × Scope
  | [] => ([], s)
  | name :: names =>
    let (v, s') := s.mention name
    let (vs, s'') := s'.mentionAll names
    (v :: vs, s'')

theorem mentionAll_append (s : Scope) (names names' : List String) :
    s.mentionAll (names ++ names') =
      let (vs, s') := s.mentionAll names
      let (vs', s'') := s'.mentionAll names'
      (vs ++ vs', s'') := by
  induction names generalizing s with
  | nil => rfl
  | cons name names ih => simp only [List.cons_append, mentionAll, ih]

/-- What a scope knows of the variables that it has given out since its first free number. -/
structure Covers (base : ℕ) (s : Scope) (vs : List Variable) : Prop where
  le_next : base ≤ s.next
  numbered : ∀ v ∈ vs, base ≤ v.id ∧ v.id < s.next
  mem_named : ∀ v, v ∈ s.named ↔ v ∈ vs ∧ v.name ≠ Variable.anonymous
  shared : vs.Pairwise Variable.SharedByName

theorem covers_startingAt (base : ℕ) : Covers base (startingAt base) [] where
  le_next := Nat.le_refl base
  numbered _ h := nomatch h
  mem_named _ := by simp [startingAt]
  shared := .nil

/-- A new number makes a new variable, so no variable so far may have a claim to the name. -/
theorem Covers.shared_new (h : Covers base s vs) {v : Variable} (hid : v.id = s.next)
    (hname : ∀ w ∈ s.named, w.name ≠ v.name) : ∀ w ∈ vs, w.SharedByName v := by
  intro w hw
  have hlt := (h.numbered w hw).2
  refine iff_of_false (by omega) fun ⟨heq, hne⟩ ↦ ?_
  exact hname w ((h.mem_named w).mpr ⟨hw, hne⟩) heq

theorem Covers.shared_named (h : Covers base s vs) {v : Variable} (hv : v ∈ s.named) :
    ∀ w ∈ vs, w.SharedByName v := by
  obtain ⟨hmem, hne⟩ := (h.mem_named v).mp hv
  intro w hw
  by_cases heq : w = v
  · subst heq
    exact iff_of_true rfl ⟨rfl, hne⟩
  · exact h.shared.forall hw hmem heq

theorem Covers.extend (h : Covers base s vs) {v : Variable} {s' : Scope}
    (hv : ∀ w ∈ vs, w.SharedByName v) (hnext : s.next ≤ s'.next)
    (hid : base ≤ v.id ∧ v.id < s'.next)
    (hnamed : ∀ w, w ∈ s'.named ↔ w ∈ s.named ∨ w = v ∧ v.name ≠ Variable.anonymous) :
    Covers base s' (vs ++ [v]) where
  le_next := Nat.le_trans h.le_next hnext
  numbered w hw := by
    rcases List.mem_append.mp hw with hw | hw
    · have hlt := h.numbered w hw
      exact ⟨hlt.1, Nat.lt_of_lt_of_le hlt.2 hnext⟩
    · rw [List.mem_singleton.mp hw]
      exact hid
  mem_named w := by
    rw [hnamed, h.mem_named, List.mem_append, List.mem_singleton, or_and_right]
    exact or_congr_right (and_congr_right fun heq ↦ by rw [heq])
  shared := List.pairwise_append.mpr
    ⟨h.shared, List.pairwise_singleton _ _, fun w hw u hu ↦ List.mem_singleton.mp hu ▸ hv w hw⟩

theorem mention_name (s : Scope) (name : String) : (s.mention name).1.name = name := by
  unfold mention
  split
  · rfl
  split
  · rename_i v hv
    simpa using List.find?_some hv
  · rfl

theorem Covers.mention (h : Covers base s vs) (name : String) :
    Covers base (s.mention name).2 (vs ++ [(s.mention name).1]) := by
  have hnew : base ≤ s.next ∧ s.next < s.next + 1 := ⟨h.le_next, Nat.lt_succ_self _⟩
  unfold Scope.mention
  split
  · rename_i hanonymous
    refine h.extend (h.shared_new rfl fun w hw ↦ ?_) (Nat.le_succ _) hnew fun w ↦ ?_
    · exact fun heq ↦ ((h.mem_named w).mp hw).2 (heq.trans hanonymous)
    · simp [fresh, hanonymous]
  split
  · rename_i v hv
    have hmem := List.mem_of_find?_eq_some hv
    refine h.extend (h.shared_named hmem) (Nat.le_refl _)
      (h.numbered v ((h.mem_named v).mp hmem).1) fun w ↦ ?_
    exact (or_iff_left_of_imp fun ⟨heq, _⟩ ↦ heq ▸ hmem).symm
  · rename_i hname _ hnone
    refine h.extend (h.shared_new rfl fun w hw ↦ ?_) (Nat.le_succ _) hnew fun w ↦ ?_
    · simpa [fresh] using List.find?_eq_none.mp hnone w hw
    · simp [fresh, hname, or_comm]

theorem Covers.mentionAll (h : Covers base s vs) (names : List String) :
    Covers base (s.mentionAll names).2 (vs ++ (s.mentionAll names).1) := by
  induction names generalizing s vs with
  | nil => simpa only [Scope.mentionAll, List.append_nil] using h
  | cons name names ih =>
    have hall := ih (h.mention name)
    rwa [List.append_assoc] at hall

theorem mentionAll_names (s : Scope) (names : List String) :
    (s.mentionAll names).1.map (·.name) = names := by
  induction names generalizing s with
  | nil => rfl
  | cons name names ih => rw [mentionAll, List.map_cons, mention_name, ih]

end Scope

theorem Term.occurrences_of_ofFunctor {f : String} {args : List Term} {t : Term}
    (h : ofFunctor f args = .ok t) : t.occurrences = occurrencesAll args := by
  unfold ofFunctor builtin compound at h
  split at h
  · split at h
    · cases h
      rfl
    · split at h <;> cases h
      rfl
  · split at h <;> cases h
    rfl

theorem Term.occurrences_of_constant {f : String} {t : Term} (h : constant f = .ok t) :
    t.occurrences = [] := by
  unfold constant compound at h
  split at h <;> cases h
  rfl

namespace Build

variable {α β : Type} {s s' : Scope}

theorem run_pure {a c : α} (h : (pure a : Build α).run s = (.ok c, s')) : a = c ∧ s = s' := by
  cases h
  exact ⟨rfl, rfl⟩

theorem run_lift {e : Except TermError α} {c : α}
    (h : (liftM e : Build α).run s = (.ok c, s')) : e = .ok c ∧ s = s' := by
  cases h
  exact ⟨rfl, rfl⟩

theorem run_mention {name : String} {v : Variable} (h : (mention name).run s = (.ok v, s')) :
    s.mention name = (v, s') := by
  cases h
  rfl

theorem run_bind {b : Build α} {f : α → Build β} {c : β} (h : (b >>= f).run s = (.ok c, s')) :
    ∃ a s₁, b.run s = (.ok a, s₁) ∧ (f a).run s₁ = (.ok c, s') := by
  rw [ExceptT.run_bind] at h
  rcases hb : b.run s with ⟨e | a, s₁⟩
  · simp only [bind, StateT.bind, hb] at h
    cases h
  · simp only [bind, StateT.bind, hb] at h
    exact ⟨a, s₁, rfl, h⟩

theorem run_map {b : Build α} {f : α → β} {c : β} (h : (f <$> b).run s = (.ok c, s')) :
    ∃ a, b.run s = (.ok a, s') ∧ f a = c := by
  rw [map_eq_pure_bind] at h
  obtain ⟨a, s₁, ha, hpure⟩ := run_bind h
  obtain ⟨hc, rfl⟩ := run_pure hpure
  exact ⟨a, ha, hc⟩

end Build

namespace TermSpec

mutual

/-- The names of variables from left to right, each as often as it is mentioned. -/
def mentions : TermSpec → List String
  | name s => if isVariableName s then [s] else []
  | var s => [s]
  | compound _ args => mentionsAll args
  | _ => []

def mentionsAll : List TermSpec → List String
  | [] => []
  | t :: ts => mentions t ++ mentionsAll ts

end

variable {s s' : Scope}

theorem mentionAll_of_run_mention {n : String} {term : Term}
    (h : (do return Term.var (← Build.mention n) : Build Term).run s = (.ok term, s')) :
    s.mentionAll [n] = (term.occurrences, s') := by
  obtain ⟨v, s₁, hv, hterm⟩ := Build.run_bind h
  obtain ⟨rfl, rfl⟩ := Build.run_pure hterm
  rw [Scope.mentionAll, Build.run_mention hv]
  rfl

mutual

/-- A term that is built has a variable for each mention, in the order in which they are made. -/
theorem mentionAll_of_run_build {s s' : Scope} : ∀ (t : TermSpec) {term : Term},
    t.build.run s = (.ok term, s') → s.mentionAll t.mentions = (term.occurrences, s')
  | int n, term, h => by
    obtain ⟨rfl, rfl⟩ := Build.run_pure h
    rfl
  | float x, term, h => by
    obtain ⟨rfl, rfl⟩ := Build.run_pure h
    rfl
  | name n, term, h => by
    rw [build] at h
    rw [mentions]
    split at h
    · rw [if_pos ‹_›]
      exact mentionAll_of_run_mention h
    · rw [if_neg ‹_›]
      obtain ⟨hterm, rfl⟩ := Build.run_lift h
      rw [Term.occurrences_of_constant hterm]
      rfl
  | var n, term, h => mentionAll_of_run_mention h
  | const n, term, h => by
    obtain ⟨hterm, rfl⟩ := Build.run_lift h
    rw [Term.occurrences_of_constant hterm]
    rfl
  | compound f args, term, h => by
    obtain ⟨terms, s₁, hargs, hrest⟩ := Build.run_bind h
    obtain ⟨hterm, rfl⟩ := Build.run_lift hrest
    rw [mentions, mentionAll_of_run_buildAll args hargs, Term.occurrences_of_ofFunctor hterm]

theorem mentionAll_of_run_buildAll {s s' : Scope} : ∀ (ts : List TermSpec) {terms : List Term},
    (buildAll ts).run s = (.ok terms, s') →
      s.mentionAll (mentionsAll ts) = (Term.occurrencesAll terms, s')
  | [], terms, h => by
    obtain ⟨rfl, rfl⟩ := Build.run_pure h
    rfl
  | t :: ts, terms, h => by
    obtain ⟨first, s₁, hfirst, hrest⟩ := Build.run_bind h
    obtain ⟨others, s₂, hothers, hterms⟩ := Build.run_bind hrest
    obtain ⟨rfl, rfl⟩ := Build.run_pure hterms
    rw [mentionsAll, Scope.mentionAll_append, mentionAll_of_run_build t hfirst]
    simp only [mentionAll_of_run_buildAll ts hothers, Term.occurrencesAll]

end

end TermSpec

theorem Rule.of_make {head : Term} {body : List Term} {degree : Float} {r : Rule}
    (h : make head body degree = .ok r) :
    r.consequent.occurrences = head.occurrences ∧ r.antecedent = body ∧ r.name = none := by
  have hhead : (head.arithLiteral?.getD head).occurrences = head.occurrences := by
    cases hliteral : head.arithLiteral? with
    | none => rfl
    | some literal =>
      obtain ⟨op, xs, rfl, rfl⟩ := Term.arithLiteral?_eq_some.mp hliteral
      rfl
  unfold make at h
  dsimp only at h
  split at h
  · split at h <;> cases h
    exact ⟨hhead, rfl, rfl⟩
  · cases h

namespace RuleSpec

variable {spec : RuleSpec} {rule : Rule} {s s' : Scope} {next next' : ℕ}

/-- The names of variables in head, body and name, each as often as it is mentioned. -/
def mentions (spec : RuleSpec) : List String :=
  spec.head.mentions ++ TermSpec.mentionsAll spec.body ++ TermSpec.mentionsAll spec.name.toList

theorem mentionAll_of_run_build (h : spec.build.run s = (.ok rule, s')) :
    s.mentionAll spec.mentions = (rule.occurrences, s') := by
  obtain ⟨head, s₁, hhead, h⟩ := Build.run_bind h
  obtain ⟨body, s₂, hbody, h⟩ := Build.run_bind h
  obtain ⟨plain, s₃, hplain, h⟩ := Build.run_bind h
  obtain ⟨hmake, rfl⟩ := Build.run_lift hplain
  obtain ⟨hconsequent, hantecedent, hnone⟩ := Rule.of_make hmake
  rw [mentions, Scope.mentionAll_append, Scope.mentionAll_append,
    TermSpec.mentionAll_of_run_build _ hhead]
  simp only [TermSpec.mentionAll_of_run_buildAll _ hbody]
  cases hname : spec.name with
  | none =>
    simp only [hname] at h
    obtain ⟨named, s₄, hnamed, h⟩ := Build.run_bind h
    obtain ⟨rfl, rfl⟩ := Build.run_pure hnamed
    obtain ⟨rfl, rfl⟩ := Build.run_pure h
    simp [Rule.occurrences, hconsequent, hantecedent, hnone, TermSpec.mentionsAll, Scope.mentionAll,
      Term.occurrencesAll]
  | some name =>
    simp only [hname] at h
    obtain ⟨named, s₄, hnamed, h⟩ := Build.run_bind h
    obtain ⟨term, hterm, rfl⟩ := Build.run_map hnamed
    obtain ⟨rfl, rfl⟩ := Build.run_pure h
    simp [Rule.occurrences, hconsequent, hantecedent, Rule.withName, TermSpec.mentionsAll,
      Term.occurrencesAll, TermSpec.mentionAll_of_run_build name hterm]

/-- The variables of a rule are numbered within what its construction takes. -/
theorem covers_of_build (h : spec.build.inOwnScope next = (.ok rule, next')) :
    ∃ s : Scope, s.next = next' ∧ s.Covers next rule.occurrences ∧
      rule.occurrences.map (·.name) = spec.mentions := by
  obtain ⟨hrule, hnext⟩ := Prod.ext_iff.mp h
  have hmentions := mentionAll_of_run_build (Prod.ext hrule rfl)
  have hcovers := (Scope.covers_startingAt next).mentionAll spec.mentions
  have hnames := Scope.mentionAll_names (.startingAt next) spec.mentions
  rw [hmentions] at hcovers hnames
  exact ⟨_, hnext, hcovers, hnames⟩

end RuleSpec

namespace RuleDocument

theorem disjoint_of_build {spec spec' : RuleSpec} {next next' base base' : ℕ} {rule rule' : Rule}
    (h : spec.build.inOwnScope next = (.ok rule, next')) (hle : next' ≤ base)
    (h' : spec'.build.inOwnScope base = (.ok rule', base')) : rule.Disjoint rule' := by
  obtain ⟨s, rfl, hcovers, -⟩ := RuleSpec.covers_of_build h
  obtain ⟨s', -, hcovers', -⟩ := RuleSpec.covers_of_build h'
  intro v hv w hw
  have hlt := (hcovers.numbered v hv).2
  have hge := (hcovers'.numbered w hw).1
  omega

theorem buildRulesFrom_disjoint {index next next' : ℕ} {specs : List RuleSpec} {rules : List Rule}
    (h : buildRulesFrom index next specs = .ok (rules, next')) :
    (∀ r ∈ rules, ∀ v ∈ r.occurrences, next ≤ v.id) ∧ rules.Pairwise Rule.Disjoint := by
  induction specs generalizing index next rules with
  | nil =>
    cases h
    exact ⟨nofun, .nil⟩
  | cons spec specs ih =>
    unfold buildRulesFrom at h
    split at h
    · cases h
    rename_i rule next₁ hrule
    cases hrest : buildRulesFrom (index + 1) next₁ specs with
    | error e =>
      rw [hrest] at h
      cases h
    | ok rest =>
      rw [hrest] at h
      cases h
      obtain ⟨hlater, hdisjoint⟩ := ih hrest
      obtain ⟨s, hs, hcovers, -⟩ := RuleSpec.covers_of_build hrule
      have hle := hcovers.le_next
      refine ⟨List.forall_mem_cons.mpr ⟨fun v hv ↦ (hcovers.numbered v hv).1, fun r hr v hv ↦ ?_⟩,
        List.pairwise_cons.mpr ⟨fun r hr v hv w hw ↦ ?_, hdisjoint⟩⟩
      · have hge := hlater r hr v hv
        omega
      · have hlt := (hcovers.numbered v hv).2
        have hge := hlater r hr w hw
        omega

/-- A rule that is built has a variable for each mention of a name in head, body and name, and two
mentions are of the same variable exactly if they have the same name and it is not the anonymous
one. Rules built one after the other, such as those of a document, have no variable in common. -/
theorem variables_scoped :
    (∀ (spec : RuleSpec) (next : ℕ) (rule : Rule) (next' : ℕ),
      spec.build.inOwnScope next = (.ok rule, next') →
        rule.occurrences.map (·.name) = spec.mentions ∧
        rule.occurrences.Pairwise (fun v w ↦
          v.id = w.id ↔ v.name = w.name ∧ v.name ≠ Variable.anonymous) ∧
        ∀ (spec' : RuleSpec) (base : ℕ) (rule' : Rule) (base' : ℕ), next' ≤ base →
          spec'.build.inOwnScope base = (.ok rule', base') → rule.Disjoint rule') ∧
    ∀ (d : RuleDocument) (next : ℕ) (rules : List Rule) (next' : ℕ),
      d.buildRules next = .ok (rules, next') → rules.Pairwise Rule.Disjoint := by
  refine ⟨fun spec next rule next' h ↦ ?_, fun d next rules next' h ↦
    (buildRulesFrom_disjoint h).2⟩
  obtain ⟨s, -, hcovers, hnames⟩ := RuleSpec.covers_of_build h
  exact ⟨hnames, hcovers.shared, fun spec' base rule' base' ↦ disjoint_of_build h⟩

def nestedMentions : RuleSpec where
  head := .compound "above" [.name "X", .name "_", .compound "tower" [.name "Y"]]
  body := [.compound "on" [.var "X", .compound "+" [.var "Y", .int 1]],
    .compound "clear" [.name "_", .const "Y"]]
  degree := 1
  name := some (.compound "stacked" [.name "X", .var "Z"])
  caption := none
  description := none

theorem nestedMentions_scoped : ∃ rule rule' rules,
    nestedMentions.build.inOwnScope 1 = (.ok rule, 6) ∧
    nestedMentions.build.inOwnScope 6 = (.ok rule', 11) ∧
    buildRules ⟨[nestedMentions, nestedMentions], []⟩ 1 = .ok (rules, 11) ∧
    rule.occurrences.map (·.name) = ["X", "_", "Y", "X", "Y", "_", "X", "Z"] ∧
    rule.occurrences.Pairwise (fun v w ↦
      v.id = w.id ↔ v.name = w.name ∧ v.name ≠ Variable.anonymous) ∧
    rule.Disjoint rule' ∧ rules.Pairwise Rule.Disjoint := by
  obtain ⟨rule, hrule⟩ : ∃ rule, nestedMentions.build.inOwnScope 1 = (.ok rule, 6) := ⟨_, rfl⟩
  obtain ⟨rule', hrule'⟩ : ∃ rule, nestedMentions.build.inOwnScope 6 = (.ok rule, 11) := ⟨_, rfl⟩
  obtain ⟨rules, hrules⟩ : ∃ rules,
      buildRules ⟨[nestedMentions, nestedMentions], []⟩ 1 = .ok (rules, 11) := ⟨_, rfl⟩
  obtain ⟨hnames, hshared, hdisjoint⟩ := variables_scoped.1 _ _ _ _ hrule
  exact ⟨rule, rule', rules, hrule, hrule', hrules, hnames.trans (by decide +kernel), hshared,
    hdisjoint _ _ _ _ (Nat.le_refl _) hrule', variables_scoped.2 _ _ _ _ hrules⟩

end RuleDocument

end Argumentation
