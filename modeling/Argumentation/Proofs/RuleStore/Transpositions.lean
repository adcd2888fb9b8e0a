import Argumentation.Proofs.Rule.Basic
import Argumentation.Proofs.RuleStore.Generated

namespace Argumentation

namespace Rule

def bare (r : Rule) : Rule :=
  { r with name := none, autoNamed := false }

theorem mem_contrapositives {r c : Rule} (h : c ∈ r.contrapositives) :
    r.isStrict = true ∧ r.isFact = false ∧ c.consequent.predicate?.isSome = true ∧
      c.isFact = false := by
  obtain ⟨hstrict, hfact, i, e, head, negated, -, hhead, -, rfl⟩ := exists_of_mem_contrapositives h
  refine ⟨hstrict, hfact, ?_, rfl⟩
  show head.predicate?.isSome = true
  revert hhead
  fun_cases Term.negation? e <;> intro hhead <;> cases hhead
  rfl

theorem isFact_of_isVariant {r s : Rule} (h : r.isVariant s = true) : r.isFact = s.isFact := by
  have hlength := (similar_of_isVariant h).2
  rw [isFact, isFact, Bool.eq_iff_iff, List.isEmpty_iff_length_eq_zero,
    List.isEmpty_iff_length_eq_zero, hlength]

end Rule

/-- Each contrapositive of the list comes from a user's rule of the list, and it is a variant of no
other rule. -/
structure Contraposed (rules : List Rule) : Prop where
  sourced : ∀ T ∈ rules, ∀ source, T.origin = .transposition source →
    ∃ S ∈ rules, S.id = source ∧ S.origin = .user ∧ ∃ c ∈ S.contrapositives,
      T.consequent = c.consequent ∧ T.antecedent = c.antecedent
  distinct : ∀ T ∈ rules, ∀ R ∈ rules, T.origin.isTransposition = true → T.id ≠ R.id →
    T.isVariant R = false

def Covered (rules : List Rule) (c : Rule) : Prop :=
  ∃ R ∈ rules, R.isVariant c = true ∨
    R.origin.isTransposition = true ∧ R.consequent = c.consequent ∧ R.antecedent = c.antecedent

section

variable {rules rules' : List Rule} {T U c : Rule}

theorem Covered.mono (h : Covered rules c) (hsub : ∀ R ∈ rules, R ∈ rules') : Covered rules' c := by
  obtain ⟨R, hR, hcovers⟩ := h
  exact ⟨R, hsub R hR, hcovers⟩

theorem exists_source (hT : T.origin.isTransposition = true) :
    ∃ source, T.origin = .transposition source := by
  revert hT
  cases T.origin with
  | user => exact fun h ↦ by cases h
  | hook source => exact fun h ↦ by cases h
  | transposition source => exact fun _ ↦ ⟨source, rfl⟩

theorem Contraposed.predicate? (h : Contraposed rules) (hT : T ∈ rules)
    (hTransposition : T.origin.isTransposition = true) :
    T.consequent.predicate?.isSome = true := by
  obtain ⟨source, hsource⟩ := exists_source hTransposition
  obtain ⟨S, -, -, -, c, hc, hconsequent, -⟩ := h.sourced T hT source hsource
  rw [hconsequent]
  exact (Rule.mem_contrapositives hc).2.2.1

theorem Contraposed.of_none (h : ∀ T ∈ rules, T.origin.isTransposition = false) :
    Contraposed rules := by
  constructor
  · intro T hT source hsource
    have := h T hT
    rw [hsource] at this
    cases this
  · intro T hT R _ hTransposition
    rw [h T hT] at hTransposition
    cases hTransposition

theorem Contraposed.filter (h : Contraposed rules) {keep : Rule → Bool}
    (hkeep : ∀ T ∈ rules, keep T = true → ∀ S ∈ rules, T.origin = .transposition S.id →
      S.origin = .user → keep S = true) : Contraposed (rules.filter keep) := by
  constructor
  · intro T hT source hsource
    obtain ⟨hT, hkept⟩ := List.mem_filter.mp hT
    obtain ⟨S, hS, rfl, huser, hc⟩ := h.sourced T hT source hsource
    have hSkept := hkeep T hT hkept S hS hsource huser
    exact ⟨S, List.mem_filter.mpr ⟨hS, hSkept⟩, rfl, huser, hc⟩
  · intro T hT R hR
    exact h.distinct T (List.mem_filter.mp hT).1 R (List.mem_filter.mp hR).1

theorem Contraposed.append_user (h : Contraposed rules) (hU : U.origin = .user)
    (hnew : ∀ T ∈ rules, T.origin.isTransposition = true → T.isVariant U = false) :
    Contraposed (rules ++ [U]) := by
  constructor
  · intro T hT source hsource
    rcases List.mem_append.mp hT with hT | hT
    · obtain ⟨S, hS, hrest⟩ := h.sourced T hT source hsource
      exact ⟨S, List.mem_append_left _ hS, hrest⟩
    · rw [List.mem_singleton.mp hT, hU] at hsource
      cases hsource
  · intro T hT R hR hTransposition hne
    rcases List.mem_append.mp hT with hT | hT
    · rcases List.mem_append.mp hR with hR | hR
      · exact h.distinct T hT R hR hTransposition hne
      · rw [List.mem_singleton.mp hR]
        exact hnew T hT hTransposition
    · rw [List.mem_singleton.mp hT, hU] at hTransposition
      cases hTransposition

theorem Contraposed.append_contrapositive (h : Contraposed rules) {S : Rule} (hS : S ∈ rules)
    (huser : S.origin = .user) (hc : c ∈ S.contrapositives)
    (hnew : ∀ R ∈ rules, R.isVariant c = false) (hT : T.origin = .transposition S.id)
    (hconsequent : T.consequent = c.consequent) (hantecedent : T.antecedent = c.antecedent) :
    Contraposed (rules ++ [T]) := by
  have hTc (R : Rule) : R.isVariant T = R.isVariant c := by
    rw [Rule.isVariant, Rule.isVariant, hconsequent, hantecedent]
  constructor
  · intro T' hT' source hsource
    rcases List.mem_append.mp hT' with hT' | hT'
    · obtain ⟨S', hS', hrest⟩ := h.sourced T' hT' source hsource
      exact ⟨S', List.mem_append_left _ hS', hrest⟩
    · rw [List.mem_singleton.mp hT'] at hsource ⊢
      rw [hT] at hsource
      cases hsource
      exact ⟨S, List.mem_append_left _ hS, rfl, huser, c, hc, hconsequent, hantecedent⟩
  · intro T' hT' R hR hTransposition hne
    rcases List.mem_append.mp hT' with hT' | hT'
    · rcases List.mem_append.mp hR with hR | hR
      · exact h.distinct T' hT' R hR hTransposition hne
      · rw [List.mem_singleton.mp hR, hTc]
        exact hnew T' hT'
    · rcases List.mem_append.mp hR with hR | hR
      · rw [List.mem_singleton.mp hT', Rule.isVariant_comm, hTc]
        exact hnew R hR
      · rw [List.mem_singleton.mp hT', List.mem_singleton.mp hR] at hne
        exact absurd rfl hne

/-- A user's rule covers what the contrapositive covered in whose place it is. -/
theorem Covered.of_variant (hvariant : T.isVariant U = true)
    (h : T.isVariant c = true ∨
      T.origin.isTransposition = true ∧ T.consequent = c.consequent ∧ T.antecedent = c.antecedent) :
    U.isVariant c = true := by
  rcases h with h | ⟨-, hconsequent, hantecedent⟩
  · exact Rule.isVariant_trans (Rule.isVariant_symm hvariant) h
  · rw [Rule.isVariant_comm, Rule.isVariant, ← hconsequent, ← hantecedent]
    exact hvariant

end

namespace RuleStore

variable {s s' : RuleStore}

def substance (s : RuleStore) : List Rule :=
  (s.rules.filter (!·.origin.isHook)).map Rule.bare

theorem mem_substance {R : Rule} :
    R ∈ s.substance ↔ ∃ r ∈ s.rules, r.origin.isHook = false ∧ r.bare = R := by
  simp [substance, and_assoc]

theorem substance_congr (h : s'.rules = s.rules) : s'.substance = s.substance := by
  rw [substance, substance, h]

theorem Indexed.eq_of_substance (h : s.Indexed) {R R' : Rule} (hR : R ∈ s.substance)
    (hR' : R' ∈ s.substance) (hid : R.id = R'.id) : R = R' := by
  obtain ⟨r, hr, -, rfl⟩ := mem_substance.mp hR
  obtain ⟨r', hr', -, rfl⟩ := mem_substance.mp hR'
  rw [h.eq_of_id hr hr' hid]

theorem substance_insert (s : RuleStore) (r : Rule) {origin : Origin}
    (horigin : origin.isHook = false) : (s.insert r origin).substance =
      s.substance ++ [Rule.bare { r with id := s.nextId, origin }] := by
  rw [substance, rules_insert, List.filter_append, List.map_append]
  simp [substance, horigin]

theorem substance_insert_hook (s : RuleStore) (r : Rule) (source : RuleId) :
    (s.insert r (.hook source)).substance = s.substance := by
  rw [substance, rules_insert, List.filter_append, List.map_append]
  simp [substance, Origin.isHook]

theorem substance_foldl_detach (s : RuleStore) (ids : List RuleId) :
    (ids.foldl detach s).substance = s.substance.filter fun r ↦ !ids.contains r.id := by
  rw [substance, substance, rules_foldl_detach, List.filter_map, List.filter_filter,
    List.filter_filter]
  refine congrArg (List.map Rule.bare) (List.filter_congr fun r _ ↦ ?_)
  exact Bool.and_comm _ _

theorem substance_addHook (s : RuleStore) (id : RuleId) :
    (s.addHook id).substance = s.substance := by
  rw [addHook]
  split
  · split
    · exact s.substance_insert_hook _ id
    · rfl
  · rfl

theorem transposing_addHook (s : RuleStore) (id : RuleId) :
    (s.addHook id).transposing = s.transposing := by
  rw [addHook]
  split
  · split
    · exact s.transposing_insert _ _
    · rfl
  · rfl

theorem Coherent.rename_frame (h : s.Coherent) (id : RuleId) :
    (s.rename id).substance = s.substance ∧ (s.rename id).transposing = s.transposing := by
  cases hr : s.rule? id with
  | none =>
    rw [RuleStore.rename, hr]
    exact ⟨rfl, rfl⟩
  | some r =>
    have hmem : r ∈ s.rules := List.mem_of_find?_eq_some hr
    have hid : r.id = id := by simpa using List.find?_some hr
    subst hid
    obtain ⟨name, renamed, hrules, hconclusions, hgenerated, htransposing, hnext, hooks, hhooks,
      heq⟩ := rename_of_rule? hr
    have hrenamed : renamed.Coherent := (h.replace hmem name).congr
      hrules hconclusions hgenerated hnext
    have hsubstance : renamed.substance = s.substance := by
      have hsame {β : Type} (f : Rule → β) (hf : f (r.withAutoName name) = f r) (x : Rule)
          (hx : x ∈ s.rules) : f (if x.id = r.id then r.withAutoName name else x) = f x := by
        split
        · rename_i hxid
          rw [h.eq_of_id hx hmem hxid, hf]
        · rfl
      rw [substance, hrules, List.filter_map, List.map_map, substance]
      refine (congrArg (List.map _) (List.filter_congr fun x hx ↦ ?_)).trans
        (List.map_congr_left fun x hx ↦ ?_)
      · exact hsame (!·.origin.isHook) rfl x hx
      · exact hsame Rule.bare rfl x (List.mem_filter.mp hx).1
    rw [heq]
    split
    · rw [substance_addHook, transposing_addHook]
      refine ⟨(substance_congr rfl).trans ((substance_foldl_detach renamed hooks).trans ?_), ?_⟩
      -- None of the hooks that leave counts.
      · rw [← hsubstance]
        refine List.filter_eq_self.mpr fun R hR ↦ ?_
        obtain ⟨x, hx, hhook, rfl⟩ := mem_substance.mp hR
        rw [Bool.not_eq_true', ← Bool.not_eq_true, List.contains_iff_mem]
        intro hmem
        have hfound := (hhooks _ hmem).2
        rw [show x.bare.id = x.id from rfl, hrenamed.rule?_eq_some hx, Option.any_some,
          hhook] at hfound
        cases hfound
      · exact (transposing_foldl_detach renamed hooks).trans htransposing
    · exact ⟨hsubstance, htransposing⟩

theorem Coherent.foldl_rename_frame (h : s.Coherent) (ids : List RuleId) :
    (ids.foldl RuleStore.rename s).substance = s.substance ∧
      (ids.foldl RuleStore.rename s).transposing = s.transposing := by
  induction ids generalizing s with
  | nil => exact ⟨rfl, rfl⟩
  | cons id ids ih =>
    obtain ⟨hsubstance, htransposing⟩ := ih (h.rename id)
    obtain ⟨hsubstance', htransposing'⟩ := h.rename_frame id
    exact ⟨hsubstance.trans hsubstance', htransposing.trans htransposing'⟩

/-- Nothing leaves, and nothing but contrapositives is new. -/
structure Extends (s s' : RuleStore) : Prop where
  transposing : s'.transposing = s.transposing
  mem : ∀ R ∈ s.substance, R ∈ s'.substance
  new : ∀ R ∈ s'.substance, R.origin.isTransposition = false → R ∈ s.substance

theorem Extends.refl (s : RuleStore) : s.Extends s :=
  ⟨rfl, fun _ hR ↦ hR, fun _ hR _ ↦ hR⟩

theorem Extends.trans {s'' : RuleStore} (h : s.Extends s') (h' : s'.Extends s'') : s.Extends s'' :=
  ⟨h'.transposing.trans h.transposing, fun R hR ↦ h'.mem R (h.mem R hR),
    fun R hR hnot ↦ h.new R (h'.new R hR hnot) hnot⟩

theorem Coherent.of_contains (h : s.Coherent) {S c : Rule} (hc : c ∈ S.contrapositives)
    (hcontains : s.contains c = true) : Covered s.substance c := by
  obtain ⟨R, hR⟩ := Option.isSome_iff_exists.mp hcontains
  obtain ⟨hmem, -, hvariant⟩ := h.of_find? hR
  cases hhook : R.origin.isHook with
  | false => exact ⟨R.bare, mem_substance.mpr ⟨R, hmem, hhook, rfl⟩, .inl hvariant⟩
  | true =>
    have hfact := Rule.isFact_of_isVariant hvariant
    rw [h.hooks R hmem hhook, (Rule.mem_contrapositives hc).2.2.2] at hfact
    cases hfact

/-- One contrapositive of a stored user's rule, if there is no variant of it yet. -/
theorem Coherent.transpose_one (h : s.Coherent) (hs : Contraposed s.substance) {S : Rule}
    (hS : S ∈ s.substance) (huser : S.origin = .user) {c : Rule} (hc : c ∈ S.contrapositives)
    (hnew : s.contains c = false) (name : Term) (nextName : ℕ) :
    let inserted := RuleStore.insert { s with nextName } (c.withAutoName name) (.transposition S.id)
    Contraposed inserted.substance ∧ s.Extends inserted ∧ Covered inserted.substance c := by
  intro inserted
  have hsubstance : inserted.substance = s.substance ++ [Rule.bare
      { c.withAutoName name with id := s.nextId, origin := .transposition S.id }] :=
    substance_insert { s with nextName } _ rfl
  have hfresh (R : Rule) (hR : R ∈ s.substance) : R.isVariant c = false := by
    obtain ⟨r, hr, -, rfl⟩ := mem_substance.mp hR
    rw [contains, Option.isSome_eq_false_iff, Option.isNone_iff_eq_none] at hnew
    show r.isVariant c = false
    exact h.of_find?_none hnew (Rule.mem_contrapositives hc).2.2.1 hr rfl
  refine ⟨?_, ⟨transposing_insert _ _ _, fun R hR ↦ ?_, fun R hR hnot ↦ ?_⟩, ?_⟩
  · rw [hsubstance]
    exact hs.append_contrapositive hS huser hc hfresh rfl rfl rfl
  · rw [hsubstance]
    exact List.mem_append_left _ hR
  · rw [hsubstance] at hR
    rcases List.mem_append.mp hR with hR | hR
    · exact hR
    · rw [List.mem_singleton.mp hR] at hnot
      cases hnot
  · rw [hsubstance]
    exact ⟨_, List.mem_append_right _ (.head _), .inr ⟨rfl, rfl, rfl⟩⟩

/-- Then each contrapositive of the rule has a variant, or is there itself. -/
theorem Coherent.transpose_spec (h : s.Coherent) (hs : Contraposed s.substance) {S : Rule}
    (hS : S.bare ∈ s.substance) (huser : S.origin = .user) :
    Contraposed (s.transpose S).substance ∧ s.Extends (s.transpose S) ∧
      ∀ c ∈ S.contrapositives, Covered (s.transpose S).substance c := by
  rw [RuleStore.transpose]
  have hsub (c : Rule) (hc : c ∈ S.contrapositives) : c ∈ S.bare.contrapositives := hc
  revert hsub
  generalize S.contrapositives = rules
  intro hsub
  induction rules generalizing s with
  | nil => exact ⟨hs, .refl s, by simp⟩
  | cons c rules ih =>
    have hc := hsub c (.head _)
    have hrest := fun c' hc' ↦ hsub c' (.tail _ hc')
    rw [List.foldl_cons]
    by_cases hcontains : s.contains c = true
    · rw [if_pos hcontains]
      obtain ⟨hcontraposed, hextends, hcovered⟩ := ih h hs hS hrest
      refine ⟨hcontraposed, hextends, List.forall_mem_cons.mpr ⟨?_, hcovered⟩⟩
      exact (h.of_contains hc hcontains).mono hextends.mem
    · rw [if_neg hcontains]
      rw [Bool.not_eq_true] at hcontains
      obtain ⟨hone, hextendsOne, hcoveredOne⟩ := h.transpose_one hs hS huser hc hcontains
        (s.takeName c).1 (s.takeName c).2.nextName
      have hcoherent : ((s.takeName c).2.insert (c.withAutoName (s.takeName c).1)
          (.transposition S.id)).Coherent :=
        (h.takeName c).insert fun hhook ↦ by cases hhook
      obtain ⟨hcontraposed, hextends, hcovered⟩ :=
        ih hcoherent hone (hextendsOne.mem _ hS) hrest
      refine ⟨hcontraposed, hextendsOne.trans hextends, List.forall_mem_cons.mpr ⟨?_, hcovered⟩⟩
      exact hcoveredOne.mono hextends.mem

theorem Coherent.transposeAll_spec (h : s.Coherent) (hs : Contraposed s.substance)
    {sources : List Rule} (hsources : ∀ S ∈ sources, S.bare ∈ s.substance ∧ S.origin = .user) :
    Contraposed (s.transposeAll sources).substance ∧ s.Extends (s.transposeAll sources) ∧
      ∀ S ∈ sources, ∀ c ∈ S.contrapositives, Covered (s.transposeAll sources).substance c := by
  rw [RuleStore.transposeAll]
  induction sources generalizing s with
  | nil => exact ⟨hs, .refl s, by simp⟩
  | cons S sources ih =>
    obtain ⟨hS, huser⟩ := hsources S (.head _)
    obtain ⟨hone, hextendsOne, hcoveredOne⟩ := h.transpose_spec hs hS huser
    obtain ⟨hcontraposed, hextends, hcovered⟩ := ih (h.transpose S) hone fun S' hS' ↦
      ⟨hextendsOne.mem _ (hsources S' (.tail _ hS')).1, (hsources S' (.tail _ hS')).2⟩
    refine ⟨hcontraposed, hextendsOne.trans hextends, List.forall_mem_cons.mpr ⟨?_, hcovered⟩⟩
    exact fun c hc ↦ (hcoveredOne c hc).mono hextends.mem

def Complete (rules : List Rule) : Prop :=
  ∀ S ∈ rules, S.origin = .user → ∀ c ∈ S.contrapositives, Covered rules c

theorem Coherent.transposeAll_strict (h : s.Coherent) (hs : Contraposed s.substance) :
    Contraposed (s.transposeAll s.strictUserRules).substance ∧
      s.Extends (s.transposeAll s.strictUserRules) ∧
      Complete (s.transposeAll s.strictUserRules).substance := by
  have hstored (S : Rule) (hS : S ∈ s.strictUserRules) :
      S.bare ∈ s.substance ∧ S.origin = .user := by
    have huser := (List.mem_filter.mp (List.mem_filter.mp hS).1)
    have horigin : S.origin = .user := by simpa [Rule.isGenerated] using huser.2
    exact ⟨mem_substance.mpr ⟨S, huser.1, by rw [horigin]; rfl, rfl⟩, horigin⟩
  obtain ⟨hcontraposed, hextends, hcovered⟩ := h.transposeAll_spec hs hstored
  refine ⟨hcontraposed, hextends, fun S hS huser c hc ↦ ?_⟩
  obtain ⟨r, hr, -, rfl⟩ := mem_substance.mp (hextends.new S hS (by rw [huser]; rfl))
  obtain ⟨hstrict, hfact, -⟩ := Rule.mem_contrapositives hc
  refine hcovered r (List.mem_filter.mpr ⟨List.mem_filter.mpr ⟨hr, ?_⟩, ?_⟩) c hc
  · have horigin : r.origin = .user := huser
    simp [Rule.isGenerated, horigin]
  · have hstrict' : r.isStrict = true := hstrict
    have hfact' : r.isFact = false := hfact
    simp [hstrict', hfact']

/-- The contrapositives that a store holds are those of its strict rules while it is transposing,
and none otherwise. -/
structure Transposed (s : RuleStore) : Prop where
  contraposed : Contraposed s.substance
  complete : s.transposing = true → Complete s.substance
  off : s.transposing = false → ∀ T ∈ s.substance, T.origin.isTransposition = false

theorem transposed_empty (transposing : Bool) : (empty transposing).Transposed where
  contraposed := .of_none (by simp [substance, empty])
  complete := by simp [Complete, substance, empty]
  off := by simp [substance, empty]

theorem Transposed.setTransposing (hc : s.Coherent) (h : s.Transposed) (on : Bool) :
    (s.setTransposing on).Transposed := by
  rw [RuleStore.setTransposing]
  split
  · exact h
  · rename_i hne
    dsimp only
    split
    · rename_i hon
      have hoff : s.transposing = false := by
        rw [← Bool.not_eq_true]
        exact fun htrue ↦ hne (htrue.trans hon.symm)
      have hcoherent : RuleStore.Coherent { s with transposing := on } := hc.congr rfl rfl rfl rfl
      obtain ⟨hcontraposed, hextends, hcomplete⟩ :=
        hcoherent.transposeAll_strict (.of_none (h.off hoff))
      refine ⟨hcontraposed, fun _ ↦ hcomplete, fun hfalse ↦ ?_⟩
      rw [hextends.transposing] at hfalse
      rw [hon] at hfalse
      cases hfalse
    · rename_i hoff
      rw [Bool.not_eq_true] at hoff
      have hnone : ∀ T ∈ (((s.rules.filter (·.origin.isTransposition)).map Rule.id).foldl detach
          { s with transposing := on }).substance, T.origin.isTransposition = false := by
        intro T hT
        rw [substance_foldl_detach, List.mem_filter, Bool.not_eq_true', ← Bool.not_eq_true,
          List.contains_iff_mem] at hT
        obtain ⟨hT, hkept⟩ := hT
        obtain ⟨r, hr, -, rfl⟩ := mem_substance.mp hT
        rw [← Bool.not_eq_true]
        intro htransposition
        exact hkept (List.mem_map.mpr ⟨r, List.mem_filter.mpr ⟨hr, htransposition⟩, rfl⟩)
      refine ⟨.of_none hnone, fun htrue ↦ ?_, fun _ ↦ hnone⟩
      have hswitch : (((s.rules.filter (·.origin.isTransposition)).map Rule.id).foldl detach
          { s with transposing := on }).transposing = on := transposing_foldl_detach _ _
      have hon : on = true := hswitch.symm.trans htrue
      rw [hon] at hoff
      cases hoff

theorem Transposed.remove (hc : s.Coherent) (h : s.Transposed) {id : RuleId} {r : Rule}
    {s' : RuleStore} (hremove : s.remove id = .ok (r, s')) : s'.Transposed := by
  rw [RuleStore.remove] at hremove
  split at hremove
  · cases hremove
  · rename_i r hr
    split at hremove
    · cases hremove
    · rename_i hsource
      cases hremove
      have hcoherent := hc.removed hr hsource
      rw [removed_eq] at hcoherent ⊢
      generalize hrest : ({ (s.generatedFrom id ++ [id]).foldl detach s with
        generated := s.generated.erase id } : RuleStore) = rest at hcoherent ⊢
      have hsubstance : rest.substance =
          s.substance.filter fun R ↦ !(s.generatedFrom id ++ [id]).contains R.id := by
        rw [← hrest]
        exact substance_foldl_detach s _
      have htransposing : rest.transposing = s.transposing := by
        rw [← hrest]
        exact transposing_foldl_detach s _
      -- The contrapositives that stay come from other rules, which stay as well.
      have hcontraposed : Contraposed rest.substance := by
        rw [hsubstance]
        refine h.contraposed.filter fun T hT hkept S hS horigin huser ↦ ?_
        rw [Bool.not_eq_true', ← Bool.not_eq_true, List.contains_iff_mem, List.mem_append,
          List.mem_singleton] at hkept ⊢
        obtain ⟨t, ht, -, rfl⟩ := mem_substance.mp hT
        obtain ⟨x, hx, -, rfl⟩ := mem_substance.mp hS
        rintro (hchild | hid)
        · obtain ⟨y, hy, hyid, hysource⟩ := hc.mem_generatedFrom.mp hchild
          rw [hc.eq_of_id hy hx hyid, show x.origin = .user from huser] at hysource
          cases hysource
        · refine hkept (.inl (hc.mem_generatedFrom.mpr ⟨t, ht, rfl, ?_⟩))
          rw [show t.origin = .transposition x.id from horigin, show x.id = id from hid]
          rfl
      split
      · rename_i hon
        obtain ⟨hcontraposed', hextends, hcomplete⟩ := hcoherent.transposeAll_strict hcontraposed
        refine ⟨hcontraposed', fun _ ↦ hcomplete, fun hoff ↦ ?_⟩
        rw [hextends.transposing, hon] at hoff
        cases hoff
      · rename_i hoff
        rw [Bool.not_eq_true] at hoff
        refine ⟨hcontraposed, fun hon ↦ ?_, fun _ T hT ↦ ?_⟩
        · rw [hoff] at hon
          cases hon
        · rw [hsubstance] at hT
          exact h.off (htransposing.symm.trans hoff) T (List.mem_filter.mp hT).1

theorem substance_dropGenerated (s : RuleStore) (r : Rule) :
    (s.dropGenerated r).substance = s.substance.filter (·.id != r.id) ∧
      (s.dropGenerated r).transposing = s.transposing := by
  have hdetach : (s.detach r.id).substance = s.substance.filter (·.id != r.id) := by
    refine (s.substance_foldl_detach [r.id]).trans (List.filter_congr fun R _ ↦ ?_)
    rw [List.contains_cons, List.contains_nil, Bool.or_false, bne]
  rw [dropGenerated]
  split
  · exact ⟨(substance_congr rfl).trans hdetach, s.transposing_detach r.id⟩
  · exact ⟨hdetach, s.transposing_detach r.id⟩

def makeRoom (s : RuleStore) (r : Rule) : RuleStore :=
  match s.find? r (·.origin.isTransposition) with
  | some transposed => s.dropGenerated transposed
  | none => s

/-- Then the rule covers what the contrapositive covered, and there is no second one. -/
theorem Coherent.makeRoom_spec (hc : s.Coherent) (h : Contraposed s.substance) (r : Rule) :
    (s.makeRoom r).Coherent ∧ (s.makeRoom r).transposing = s.transposing ∧
      Contraposed (s.makeRoom r).substance ∧
      (∀ R ∈ (s.makeRoom r).substance, R ∈ s.substance) ∧
      (∀ T ∈ (s.makeRoom r).substance, T.origin.isTransposition = true → T.isVariant r = false) ∧
      ∀ U : Rule, U.isVariant = r.isVariant → ∀ c, Covered s.substance c →
        Covered ((s.makeRoom r).substance ++ [U]) c := by
  rw [makeRoom]
  split
  · rename_i transposed hfound
    obtain ⟨hmem, htransposition, hvariant⟩ := hc.of_find? hfound
    obtain ⟨hsubstance, htransposing⟩ := s.substance_dropGenerated transposed
    have hbare : transposed.bare ∈ s.substance := by
      refine mem_substance.mpr ⟨transposed, hmem, ?_, rfl⟩
      obtain ⟨source, hsource⟩ := exists_source htransposition
      rw [hsource]
      rfl
    have hmemRest {R : Rule} : R ∈ (s.dropGenerated transposed).substance ↔
        R ∈ s.substance ∧ R.id ≠ transposed.id := by
      rw [hsubstance, List.mem_filter, bne_iff_ne]
    refine ⟨hc.dropGenerated hmem, htransposing, ?_, fun R hR ↦ (hmemRest.mp hR).1, ?_, ?_⟩
    · rw [hsubstance]
      refine h.filter fun _ _ _ S hS _ huser ↦ ?_
      rw [bne_iff_ne]
      intro hid
      rw [hc.eq_of_substance hS hbare hid] at huser
      rw [show transposed.origin = .user from huser] at htransposition
      cases htransposition
    · intro T hT hT'
      rw [← Bool.not_eq_true]
      intro hvariant'
      have hdistinct := h.distinct T (hmemRest.mp hT).1 _ hbare hT' (hmemRest.mp hT).2
      rw [show T.isVariant transposed.bare = true from
        Rule.isVariant_trans hvariant' (Rule.isVariant_symm hvariant)] at hdistinct
      cases hdistinct
    · rintro U hU c ⟨R, hR, hcovers⟩
      by_cases hid : R.id = transposed.id
      · rw [hc.eq_of_substance hR hbare hid] at hcovers
        refine ⟨U, List.mem_append_right _ (.head _), .inl ?_⟩
        rw [hU]
        exact Covered.of_variant hvariant hcovers
      · exact ⟨R, List.mem_append_left _ (hmemRest.mpr ⟨hR, hid⟩), hcovers⟩
  · rename_i hnone
    refine ⟨hc, rfl, h, fun R hR ↦ hR, fun T hT hT' ↦ ?_, fun U _ c hcovered ↦ ?_⟩
    · rw [← Bool.not_eq_true]
      intro hvariant
      obtain ⟨t, ht, -, rfl⟩ := mem_substance.mp hT
      have hpredicate := h.predicate? hT hT'
      rw [(Rule.similar_of_isVariant hvariant).1] at hpredicate
      have hfresh := hc.of_find?_none hnone hpredicate ht hT'
      rw [show t.isVariant r = true from hvariant] at hfresh
      cases hfresh
    · exact hcovered.mono fun R hR ↦ List.mem_append_left _ hR

theorem Coherent.enlarge_frame (hc : s.Coherent) (named : Rule) (ids : List RuleId) :
    (s.enlarge named ids).substance =
        s.substance ++ [Rule.bare { named with id := s.nextId, origin := .user }] ∧
      (s.enlarge named ids).transposing = s.transposing := by
  have hinserted : (s.insert named .user).Coherent := hc.insert fun hhook ↦ by cases hhook
  obtain ⟨hsubstance, htransposing⟩ := hinserted.foldl_rename_frame ids
  rw [substance_insert s named rfl] at hsubstance
  rw [transposing_insert] at htransposing
  rw [RuleStore.enlarge]
  split
  · exact ⟨hsubstance, htransposing⟩
  · exact ⟨(substance_addHook _ _).trans hsubstance, (transposing_addHook _ _).trans htransposing⟩

/-- A user's rule that no contrapositive is a variant of, with everything it brings along. The old
strict rules are still covered if the new rule is there as well. -/
theorem Coherent.install_transposed (hc : s.Coherent) (h : Contraposed s.substance) {named : Rule}
    (hfresh : ∀ T ∈ s.substance, T.origin.isTransposition = true → T.isVariant named = false)
    (hcovered : s.transposing = true → ∀ S ∈ s.substance, S.origin = .user →
      ∀ c ∈ S.contrapositives,
        Covered (s.substance ++ [Rule.bare { named with id := s.nextId, origin := .user }]) c)
    (hoff : s.transposing = false → ∀ T ∈ s.substance, T.origin.isTransposition = false)
    (ids : List RuleId) : RuleStore.Transposed
      (let enlarged := s.enlarge named ids
      if enlarged.transposing then enlarged.transposeAll (enlarged.rule? s.nextId).toList
        else enlarged) := by
  have hcoherent := hc.enlarge named ids
  obtain ⟨hsubstance, htransposing⟩ := hc.enlarge_frame named ids
  dsimp only
  generalize s.enlarge named ids = enlarged at hcoherent hsubstance htransposing ⊢
  generalize hU : Rule.bare { named with id := s.nextId, origin := .user } = U at *
  have huser : U.origin = .user := by rw [← hU]; rfl
  have hcontraposed : Contraposed enlarged.substance := by
    rw [hsubstance]
    refine h.append_user huser fun T hT hT' ↦ ?_
    rw [← hU]
    exact hfresh T hT hT'
  have hmem : U ∈ enlarged.substance := by
    rw [hsubstance]
    exact List.mem_append_right _ (.head _)
  split
  · rename_i hon
    obtain ⟨x, hx, -, hxU⟩ := mem_substance.mp hmem
    have hid : x.id = s.nextId := by
      rw [← hU] at hxU
      exact congrArg Rule.id hxU
    rw [← hid, hcoherent.rule?_eq_some hx, Option.toList_some]
    have hstored : ∀ S ∈ [x], S.bare ∈ enlarged.substance ∧ S.origin = .user := by
      intro S hS
      rw [List.mem_singleton.mp hS, hxU]
      exact ⟨hmem, (congrArg Rule.origin hxU).trans huser⟩
    obtain ⟨hcontraposed', hextends, hcovered'⟩ :=
      hcoherent.transposeAll_spec hcontraposed hstored
    refine ⟨hcontraposed', fun _ S hS hSuser c hc ↦ ?_, fun hfalse ↦ ?_⟩
    · have hSold := hextends.new S hS (by rw [hSuser]; rfl)
      rw [hsubstance] at hSold
      rcases List.mem_append.mp hSold with hSold | hSnew
      · have hcover := hcovered (htransposing.symm.trans hon) S hSold hSuser c hc
        rw [← hsubstance] at hcover
        exact hcover.mono hextends.mem
      · rw [List.mem_singleton.mp hSnew, ← hxU] at hc
        exact hcovered' x (.head _) c hc
    · rw [hextends.transposing, hon] at hfalse
      cases hfalse
  · rename_i hfalse
    rw [Bool.not_eq_true] at hfalse
    refine ⟨hcontraposed, fun hon ↦ ?_, fun _ T hT ↦ ?_⟩
    · rw [hfalse] at hon
      cases hon
    · rw [hsubstance] at hT
      rcases List.mem_append.mp hT with hT | hT
      · exact hoff (htransposing.symm.trans hfalse) T hT
      · rw [List.mem_singleton.mp hT, huser]
        rfl

theorem Transposed.add (hc : s.Coherent) (h : s.Transposed) {r : Rule} {id : RuleId}
    {s' : RuleStore} (hadd : s.add r = .ok (id, s')) : s'.Transposed := by
  rw [RuleStore.add] at hadd
  split at hadd
  · cases hadd
  · cases hsettle : s.settleName r with
    | error e =>
      rw [hsettle] at hadd
      cases hadd
    | ok settled =>
      obtain ⟨named, ids, s₁⟩ := settled
      rw [hsettle] at hadd
      cases hadd
      obtain ⟨⟨nextName, rfl⟩, -⟩ := settleName_cases hsettle
      have hc₁ : RuleStore.Coherent { s with nextName } := hc.congr rfl rfl rfl rfl
      obtain ⟨hc₂, htransposing, hcontraposed, hsub, hfresh, hcovered⟩ :=
        hc₁.makeRoom_spec h.contraposed named
      refine hc₂.install_transposed hcontraposed hfresh (fun hon S hS huser c hc ↦ ?_)
        (fun hoff T hT ↦ ?_) ids
      · have hold := h.complete (htransposing.symm.trans hon) S (hsub S hS) huser c hc
        exact hcovered (Rule.bare { named with id := _, origin := .user }) rfl c hold
      · exact h.off (htransposing.symm.trans hoff) T (hsub T hT)

theorem Reachable.transposed (h : s.Reachable) : s.Transposed := by
  induction h with
  | empty transposing => exact transposed_empty transposing
  | add hs hadd ih => exact ih.add hs.coherent hadd
  | remove hs hremove ih => exact ih.remove hs.coherent hremove
  | setTransposing on hs ih => exact ih.setTransposing hs.coherent on

theorem mem_userRules {r : Rule} : r ∈ s.userRules ↔ r ∈ s.rules ∧ r.origin = .user := by
  simp [userRules, Rule.isGenerated]

theorem mem_strictUserRules {r : Rule} : r ∈ s.strictUserRules ↔
    (r ∈ s.rules ∧ r.origin = .user) ∧ r.isStrict = true ∧ r.isFact = false := by
  rw [strictUserRules, List.mem_filter, mem_userRules, Bool.and_eq_true, Bool.not_eq_true']

theorem bare_mem_substance {r : Rule} (hr : r ∈ s.rules) (hhook : r.origin.isHook = false) :
    r.bare ∈ s.substance :=
  mem_substance.mpr ⟨r, hr, hhook, rfl⟩

theorem isHook_of_isTransposition {o : Origin} (h : o.isTransposition = true) :
    o.isHook = false := by
  cases o <;> first | rfl | cases h

theorem Transposed.isTransposition_of_off (h : s.Transposed) (hoff : s.transposing = false)
    {T : Rule} (hT : T ∈ s.rules) : T.origin.isTransposition = false := by
  rw [← Bool.not_eq_true]
  intro htransposition
  have hnone : T.origin.isTransposition = false := h.off hoff T.bare
    (bare_mem_substance hT (isHook_of_isTransposition htransposition))
  rw [htransposition] at hnone
  cases hnone

/-- A stored contrapositive is a variant of no other rule that is stored for its content. -/
theorem Transposed.not_isVariant (h : s.Transposed) {T R : Rule} (hT : T ∈ s.rules)
    (htransposition : T.origin.isTransposition = true) (hR : R ∈ s.rules)
    (hhook : R.origin.isHook = false) (hne : T.id ≠ R.id) : T.isVariant R = false :=
  h.contraposed.distinct T.bare (bare_mem_substance hT (isHook_of_isTransposition htransposition))
    R.bare (bare_mem_substance hR hhook) htransposition hne

theorem Transposed.exists_strict (h : s.Transposed) {T : Rule} (hT : T ∈ s.rules)
    {source : RuleId} (hsource : T.origin = .transposition source) :
    ∃ S ∈ s.strictUserRules, S.id = source ∧ ∃ c ∈ S.contrapositives,
      T.consequent = c.consequent ∧ T.antecedent = c.antecedent := by
  have hmem := bare_mem_substance hT (by rw [hsource]; rfl)
  obtain ⟨S, hS, hid, huser, c, hc, heq⟩ := h.contraposed.sourced _ hmem source hsource
  obtain ⟨r, hr, -, rfl⟩ := mem_substance.mp hS
  obtain ⟨hstrict, hfact, -⟩ := Rule.mem_contrapositives hc
  exact ⟨r, mem_strictUserRules.mpr ⟨⟨hr, huser⟩, hstrict, hfact⟩, hid, c, hc, heq⟩

theorem Transposed.exists_transposition (h : s.Transposed) (hon : s.transposing = true)
    {S : Rule} (hS : S ∈ s.strictUserRules) {c : Rule} (hc : c ∈ S.contrapositives)
    (hshadow : ∀ U ∈ s.userRules, U.isVariant c = false) :
    ∃ T ∈ s.rules, T.origin.isTransposition = true ∧
      (T.isVariant c = true ∨ T.consequent = c.consequent ∧ T.antecedent = c.antecedent) := by
  obtain ⟨⟨hS, huser⟩, -⟩ := mem_strictUserRules.mp hS
  have hmem := bare_mem_substance hS (by rw [huser]; rfl)
  obtain ⟨R, hR, hcovers⟩ := h.complete hon _ hmem huser c hc
  obtain ⟨T, hT, hhook, rfl⟩ := mem_substance.mp hR
  refine ⟨T, hT, ?_, hcovers.imp_right And.right⟩
  cases horigin : T.origin with
  | transposition source => rfl
  | hook source =>
    rw [horigin] at hhook
    cases hhook
  | user =>
    have hnone := hshadow T (mem_userRules.mpr ⟨hT, horigin⟩)
    rcases hcovers with hvariant | ⟨htransposition, -⟩
    · rw [show T.isVariant c = true from hvariant] at hnone
      cases hnone
    · rw [show T.bare.origin = .user from horigin] at htransposition
      cases htransposition

/-- Which contrapositives a store holds is settled by the users' rules, in whatever order the store
came about. Without transposing there are none. With it, no two of them are variants; each one is a
contrapositive of the stored strict rule that it comes from, and no user's rule is a variant of it;
and each contrapositive of a stored strict rule that no user's rule is a variant of has a variant
among them, or is there itself, which makes a difference only where a NaN occurs in it. -/
theorem Reachable.transpositions_settled (h : s.Reachable) :
    (s.transposing = false → ∀ T ∈ s.rules, T.origin.isTransposition = false) ∧
    (s.transposing = true →
      (s.rules.filter (·.origin.isTransposition)).Pairwise
        (fun T T' ↦ T.isVariant T' = false ∧ T'.isVariant T = false) ∧
      (∀ T ∈ s.rules, ∀ source, T.origin = .transposition source →
        (∃ S ∈ s.strictUserRules, S.id = source ∧ ∃ c ∈ S.contrapositives,
          T.consequent = c.consequent ∧ T.antecedent = c.antecedent) ∧
        ∀ U ∈ s.userRules, U.isVariant T = false) ∧
      ∀ S ∈ s.strictUserRules, ∀ c ∈ S.contrapositives,
        (∀ U ∈ s.userRules, U.isVariant c = false) →
        ∃ T ∈ s.rules, T.origin.isTransposition = true ∧
          (T.isVariant c = true ∨ T.consequent = c.consequent ∧ T.antecedent = c.antecedent)) := by
  have htransposed := h.transposed
  refine ⟨fun hoff T hT ↦ ?_, fun hon ↦ ⟨?_, fun T hT source hsource ↦
    ⟨htransposed.exists_strict hT hsource, fun U hU ↦ ?_⟩,
    fun S hS c hc ↦ htransposed.exists_transposition hon hS hc⟩⟩
  · exact htransposed.isTransposition_of_off hoff hT
  · have hids : (s.rules.filter (·.origin.isTransposition)).Pairwise (·.id ≠ ·.id) :=
      (List.pairwise_map.mp h.indexed.nodup).sublist List.filter_sublist
    refine hids.imp_of_mem fun {T T'} hT hT' hne ↦ ?_
    obtain ⟨hT, htransposition⟩ := List.mem_filter.mp hT
    obtain ⟨hT', htransposition'⟩ := List.mem_filter.mp hT'
    exact ⟨htransposed.not_isVariant hT htransposition hT'
        (isHook_of_isTransposition htransposition') hne,
      htransposed.not_isVariant hT' htransposition' hT
        (isHook_of_isTransposition htransposition) hne.symm⟩
  · obtain ⟨hU, huser⟩ := mem_userRules.mp hU
    rw [Rule.isVariant_comm]
    refine htransposed.not_isVariant hT (by rw [hsource]; rfl) hU (by rw [huser]; rfl) fun hid ↦ ?_
    rw [h.indexed.eq_of_id hT hU hid, huser] at hsource
    cases hsource

def shadowed : RuleStore :=
  (Engine.addAll ⟨.default, .empty true⟩ [.plain (.const "p") [.const "q"] .one,
    .plain (.const "~q") [.const "~p"] .one, .plain (.const "r") [.const "s"] .one]).2.store

theorem shadowed_settled :
    shadowed.transposing = true ∧
    (shadowed.rules.filter (·.origin.isTransposition)).map Rule.text = ["~s <- ~r."] ∧
    (shadowed.transposing = false → ∀ T ∈ shadowed.rules, T.origin.isTransposition = false) ∧
    (shadowed.transposing = true →
      (shadowed.rules.filter (·.origin.isTransposition)).Pairwise
        (fun T T' ↦ T.isVariant T' = false ∧ T'.isVariant T = false) ∧
      (∀ T ∈ shadowed.rules, ∀ source, T.origin = .transposition source →
        (∃ S ∈ shadowed.strictUserRules, S.id = source ∧ ∃ c ∈ S.contrapositives,
          T.consequent = c.consequent ∧ T.antecedent = c.antecedent) ∧
        ∀ U ∈ shadowed.userRules, U.isVariant T = false) ∧
      ∀ S ∈ shadowed.strictUserRules, ∀ c ∈ S.contrapositives,
        (∀ U ∈ shadowed.userRules, U.isVariant c = false) →
        ∃ T ∈ shadowed.rules, T.origin.isTransposition = true ∧
          (T.isVariant c = true ∨ T.consequent = c.consequent ∧ T.antecedent = c.antecedent)) := by
  have hreachable : shadowed.Reachable := Engine.addAll_reachable (.empty true) _
  exact ⟨by decide +kernel, by decide +kernel, hreachable.transpositions_settled⟩

end RuleStore

end Argumentation
