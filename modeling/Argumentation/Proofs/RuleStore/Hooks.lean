import Argumentation.Proofs.RuleStore.Changes

namespace Argumentation

/-- Hooks assert the names of users' rules, and each rule with an antecedent that does not wait for
its hook has one. A fact comes to a hook only if its name is an automatic one. -/
structure Hooked (rules : List Rule) (waiting : List RuleId) : Prop where
  asserted : ∀ h ∈ rules, ∀ id, h.origin = .hook id → id ∉ waiting ∧ h.antecedent = [] ∧
    ∃ x ∈ rules, x.id = id ∧ x.origin = .user ∧ x.name = some h.consequent ∧
      x.degree = h.degree ∧ (x.isFact = true → x.autoNamed = true)
  unique : ∀ h ∈ rules, ∀ h' ∈ rules, ∀ id, h.origin = .hook id → h'.origin = .hook id →
    h.id = h'.id
  named : ∀ x ∈ rules, x.origin = .user → x.isFact = false → x.name.isSome = true
  exists_hook : ∀ x ∈ rules, x.origin = .user → x.isFact = false → x.id ∉ waiting →
    ∃ h ∈ rules, h.origin = .hook x.id

namespace Hooked

variable {rules : List Rule} {waiting : List RuleId}

theorem nil : Hooked [] waiting := by
  constructor <;> intro x hx <;> cases hx

theorem append_user (h : Hooked rules waiting) {x : Rule} (huser : x.origin = .user)
    (hname : x.isFact = false → x.name.isSome = true) (hnew : ∀ r ∈ rules, r.id ≠ x.id) :
    Hooked (rules ++ [x]) (x.id :: waiting) := by
  constructor
  · intro k hk id hid
    rcases List.mem_append.mp hk with hk | hk
    · obtain ⟨hwaiting, hfact, y, hy, rfl, hrest⟩ := h.asserted k hk id hid
      refine ⟨?_, hfact, y, List.mem_append_left _ hy, rfl, hrest⟩
      rw [List.mem_cons, not_or]
      exact ⟨hnew y hy, hwaiting⟩
    · rw [List.mem_singleton.mp hk, huser] at hid
      cases hid
  · intro k hk k' hk' id hid hid'
    rcases List.mem_append.mp hk with hk | hk
    · rcases List.mem_append.mp hk' with hk' | hk'
      · exact h.unique k hk k' hk' id hid hid'
      · rw [List.mem_singleton.mp hk', huser] at hid'
        cases hid'
    · rw [List.mem_singleton.mp hk, huser] at hid
      cases hid
  · intro y hy hyuser hyfact
    rcases List.mem_append.mp hy with hy | hy
    · exact h.named y hy hyuser hyfact
    · rw [List.mem_singleton.mp hy] at hyfact ⊢
      exact hname hyfact
  · intro y hy hyuser hyfact hwaiting
    rw [List.mem_cons, not_or] at hwaiting
    rcases List.mem_append.mp hy with hy | hy
    · obtain ⟨k, hk, hid⟩ := h.exists_hook y hy hyuser hyfact hwaiting.2
      exact ⟨k, List.mem_append_left _ hk, hid⟩
    · exact absurd (congrArg Rule.id (List.mem_singleton.mp hy)) hwaiting.1

theorem append_hook {x k : Rule} (h : Hooked rules (x.id :: waiting)) (hx : x ∈ rules)
    (huser : x.origin = .user) (hwaiting : x.id ∉ waiting) (horigin : k.origin = .hook x.id)
    (hfact : k.antecedent = []) (hname : x.name = some k.consequent) (hdegree : x.degree = k.degree)
    (hauto : x.isFact = true → x.autoNamed = true) : Hooked (rules ++ [k]) waiting := by
  constructor
  · intro k' hk' id hid
    rcases List.mem_append.mp hk' with hk' | hk'
    · obtain ⟨hwaiting', hfact', y, hy, hrest⟩ := h.asserted k' hk' id hid
      exact ⟨fun hmem ↦ hwaiting' (.tail _ hmem), hfact', y, List.mem_append_left _ hy, hrest⟩
    · rw [List.mem_singleton.mp hk'] at hid ⊢
      rw [horigin] at hid
      cases hid
      exact ⟨hwaiting, hfact, x, List.mem_append_left _ hx, rfl, huser, hname, hdegree, hauto⟩
  · -- The rules that wait have no hook before.
    have hnone (k' : Rule) (hk' : k' ∈ rules) (hid : k'.origin = .hook x.id) : False :=
      (h.asserted k' hk' x.id hid).1 (.head _)
    intro k₁ hk₁ k₂ hk₂ id hid₁ hid₂
    rcases List.mem_append.mp hk₁ with hk₁ | hk₁ <;> rcases List.mem_append.mp hk₂ with hk₂ | hk₂
    · exact h.unique k₁ hk₁ k₂ hk₂ id hid₁ hid₂
    · rw [List.mem_singleton.mp hk₂, horigin] at hid₂
      cases hid₂
      exact (hnone k₁ hk₁ hid₁).elim
    · rw [List.mem_singleton.mp hk₁, horigin] at hid₁
      cases hid₁
      exact (hnone k₂ hk₂ hid₂).elim
    · rw [List.mem_singleton.mp hk₁, List.mem_singleton.mp hk₂]
  · intro y hy hyuser hyfact
    rcases List.mem_append.mp hy with hy | hy
    · exact h.named y hy hyuser hyfact
    · rw [List.mem_singleton.mp hy, horigin] at hyuser
      cases hyuser
  · intro y hy hyuser hyfact hywaiting
    rcases List.mem_append.mp hy with hy | hy
    · by_cases hid : y.id = x.id
      · exact ⟨k, List.mem_append_right _ (.head _), by rw [horigin, hid]⟩
      · obtain ⟨k', hk', hid'⟩ := h.exists_hook y hy hyuser hyfact (by simp [hid, hywaiting])
        exact ⟨k', List.mem_append_left _ hk', hid'⟩
    · rw [List.mem_singleton.mp hy, horigin] at hyuser
      cases hyuser

theorem append_transposition (h : Hooked rules waiting) {T : Rule}
    (hT : T.origin.isTransposition = true) : Hooked (rules ++ [T]) waiting := by
  have hmem {x : Rule} (hx : x ∈ rules ++ [T]) (hnot : x.origin.isTransposition = false) :
      x ∈ rules := by
    rcases List.mem_append.mp hx with hx | hx
    · exact hx
    · rw [List.mem_singleton.mp hx, hT] at hnot
      cases hnot
  constructor
  · intro k hk id hid
    obtain ⟨hwaiting, hfact, y, hy, hrest⟩ := h.asserted k (hmem hk (by rw [hid]; rfl)) id hid
    exact ⟨hwaiting, hfact, y, List.mem_append_left _ hy, hrest⟩
  · intro k hk k' hk' id hid hid'
    exact h.unique k (hmem hk (by rw [hid]; rfl)) k' (hmem hk' (by rw [hid']; rfl)) id hid hid'
  · intro x hx huser
    exact h.named x (hmem hx (by rw [huser]; rfl)) huser
  · intro x hx huser hfact hwaiting
    obtain ⟨k, hk, hid⟩ := h.exists_hook x (hmem hx (by rw [huser]; rfl)) huser hfact hwaiting
    exact ⟨k, List.mem_append_left _ hk, hid⟩

theorem filter (h : Hooked rules waiting) {keep : Rule → Bool}
    (hkeep : ∀ k ∈ rules, ∀ x ∈ rules, k.origin = .hook x.id → x.origin = .user →
      keep k = keep x) : Hooked (rules.filter keep) waiting := by
  constructor
  · intro k hk id hid
    obtain ⟨hk, hkept⟩ := List.mem_filter.mp hk
    obtain ⟨hwaiting, hfact, x, hx, rfl, huser, hrest⟩ := h.asserted k hk id hid
    rw [hkeep k hk x hx hid huser] at hkept
    exact ⟨hwaiting, hfact, x, List.mem_filter.mpr ⟨hx, hkept⟩, rfl, huser, hrest⟩
  · intro k hk k' hk'
    exact h.unique k (List.mem_filter.mp hk).1 k' (List.mem_filter.mp hk').1
  · intro x hx
    exact h.named x (List.mem_filter.mp hx).1
  · intro x hx huser hfact hwaiting
    obtain ⟨hx, hkept⟩ := List.mem_filter.mp hx
    obtain ⟨k, hk, hid⟩ := h.exists_hook x hx huser hfact hwaiting
    rw [← hkeep k hk x hx hid huser] at hkept
    exact ⟨k, List.mem_filter.mpr ⟨hk, hkept⟩, hid⟩

theorem unhook (h : Hooked rules waiting) (id : RuleId) :
    Hooked (rules.filter fun r ↦ r.origin ≠ .hook id) (id :: waiting) := by
  constructor
  · intro k hk source hsource
    obtain ⟨hk, hkept⟩ := List.mem_filter.mp hk
    obtain ⟨hwaiting, hfact, x, hx, rfl, huser, hrest⟩ := h.asserted k hk source hsource
    refine ⟨?_, hfact, x, List.mem_filter.mpr ⟨hx, by simp [huser]⟩, rfl, huser, hrest⟩
    rw [List.mem_cons, not_or]
    refine ⟨?_, hwaiting⟩
    rintro rfl
    simp [hsource] at hkept
  · intro k hk k' hk'
    exact h.unique k (List.mem_filter.mp hk).1 k' (List.mem_filter.mp hk').1
  · intro x hx
    exact h.named x (List.mem_filter.mp hx).1
  · intro x hx huser hfact hwaiting
    rw [List.mem_cons, not_or] at hwaiting
    obtain ⟨k, hk, hid⟩ := h.exists_hook x (List.mem_filter.mp hx).1 huser hfact hwaiting.2
    refine ⟨k, List.mem_filter.mpr ⟨hk, ?_⟩, hid⟩
    simp [hid, hwaiting.1]

/-- A rule that waits may change its name, and so may a rule that no hook belongs to. -/
theorem rename (h : Hooked rules waiting) {f : Rule → Rule}
    (hf : ∀ x ∈ rules, f x = x ∨ (x.origin = .user → x.id ∈ waiting) ∧
      ∃ name, f x = x.withAutoName name) : Hooked (rules.map f) waiting := by
  have hsame (x : Rule) (hx : x ∈ rules) : (f x).id = x.id ∧ (f x).origin = x.origin ∧
      (f x).consequent = x.consequent ∧ (f x).antecedent = x.antecedent ∧
      (f x).degree = x.degree := by
    rcases hf x hx with heq | ⟨-, name, heq⟩
    · rw [heq]
      exact ⟨rfl, rfl, rfl, rfl, rfl⟩
    · rw [heq]
      exact ⟨rfl, rfl, rfl, rfl, rfl⟩
  constructor
  · intro k hk id hid
    obtain ⟨y, hy, rfl⟩ := List.mem_map.mp hk
    obtain ⟨-, horigin, hconsequent, hantecedent, hdegree⟩ := hsame y hy
    rw [horigin] at hid
    obtain ⟨hwaiting, hfact, x, hx, rfl, huser, hrest⟩ := h.asserted y hy id hid
    have hfixed : f x = x := (hf x hx).resolve_right fun hwaits ↦ hwaiting (hwaits.1 huser)
    rw [hconsequent, hantecedent, hdegree]
    exact ⟨hwaiting, hfact, x, List.mem_map.mpr ⟨x, hx, hfixed⟩, rfl, huser, hrest⟩
  · intro k hk k' hk' id hid hid'
    obtain ⟨y, hy, rfl⟩ := List.mem_map.mp hk
    obtain ⟨y', hy', rfl⟩ := List.mem_map.mp hk'
    rw [(hsame y hy).2.1] at hid
    rw [(hsame y' hy').2.1] at hid'
    rw [(hsame y hy).1, (hsame y' hy').1]
    exact h.unique y hy y' hy' id hid hid'
  · intro x hx huser hfact
    obtain ⟨y, hy, rfl⟩ := List.mem_map.mp hx
    rcases hf y hy with heq | ⟨-, name, heq⟩
    · rw [heq] at huser hfact ⊢
      exact h.named y hy huser hfact
    · rw [heq]
      rfl
  · intro x hx huser hfact hwaiting
    obtain ⟨y, hy, rfl⟩ := List.mem_map.mp hx
    obtain ⟨hid, horigin, -, hantecedent, -⟩ := hsame y hy
    rw [horigin] at huser
    rw [Rule.isFact, hantecedent] at hfact
    rw [hid] at hwaiting ⊢
    obtain ⟨k, hk, hsource⟩ := h.exists_hook y hy huser hfact hwaiting
    exact ⟨f k, List.mem_map_of_mem hk, (hsame k hk).2.1.trans hsource⟩

theorem of_fact {id : RuleId} (h : Hooked rules (id :: waiting))
    (hfact : ∀ x ∈ rules, x.id = id → x.isFact = true) : Hooked rules waiting := by
  refine ⟨fun k hk source hsource ↦ ?_, h.unique, h.named, fun x hx huser hxfact hwaiting ↦ ?_⟩
  · obtain ⟨hnot, hrest⟩ := h.asserted k hk source hsource
    exact ⟨fun hmem ↦ hnot (.tail _ hmem), hrest⟩
  · refine h.exists_hook x hx huser hxfact ?_
    rw [List.mem_cons, not_or]
    refine ⟨fun hid ↦ ?_, hwaiting⟩
    rw [hfact x hx hid] at hxfact
    cases hxfact

end Hooked

namespace RuleStore

variable {s s' : RuleStore} {p : Rule → Prop} {waiting : List RuleId}

theorem Coherent.retitle (h : s.Coherent) {r : Rule} (hr : r ∈ s.rules) :
    (s.retitle r).Coherent := by
  obtain ⟨nextName, heq⟩ := s.retitle_eq r
  rw [heq]
  exact (h.replace hr (s.newName r)).congr rfl rfl rfl rfl

theorem Coherent.mem_ownHooks (h : s.Coherent) {source id : RuleId} :
    id ∈ s.ownHooks source ↔ ∃ k ∈ s.rules, k.id = id ∧ k.origin = .hook source := by
  rw [ownHooks, List.mem_filter, h.mem_generatedFrom]
  constructor
  · rintro ⟨⟨k, hk, rfl, hsource⟩, hhook⟩
    rw [h.rule?_eq_some hk, Option.any_some] at hhook
    refine ⟨k, hk, rfl, ?_⟩
    cases horigin : k.origin with
    | hook id =>
      rw [horigin] at hsource
      cases hsource
      rfl
    | user =>
      rw [horigin] at hhook
      cases hhook
    | transposition id =>
      rw [horigin] at hhook
      cases hhook
  · rintro ⟨k, hk, rfl, horigin⟩
    refine ⟨⟨k, hk, rfl, by rw [horigin]; rfl⟩, ?_⟩
    rw [h.rule?_eq_some hk, Option.any_some, horigin]
    rfl

theorem Coherent.rules_unhook (h : s.Coherent) (id : RuleId) :
    (s.unhook id).rules = s.rules.filter fun r ↦ r.origin ≠ .hook id := by
  rw [RuleStore.rules_unhook]
  refine List.filter_congr fun r hr ↦ ?_
  rw [Bool.eq_iff_iff, Bool.not_eq_true', ← Bool.not_eq_true, decide_eq_true_iff, not_iff_not,
    List.contains_iff_mem, h.mem_ownHooks]
  constructor
  · rintro ⟨k, hk, hid, horigin⟩
    rwa [h.eq_of_id hr hk hid.symm]
  · exact fun horigin ↦ ⟨r, hr, rfl, horigin⟩

theorem Coherent.rules_unhook_retitle (h : s.Coherent) {r : Rule} (hr : r ∈ s.rules) :
    ((s.retitle r).unhook r.id).rules =
      (s.rules.filter fun x ↦ x.origin ≠ .hook r.id).map fun x ↦
        if x.id = r.id then r.withAutoName (s.newName r) else x := by
  rw [(h.retitle hr).rules_unhook, rules_retitle, List.filter_map]
  refine congrArg (List.map _) (List.filter_congr fun x hx ↦ ?_)
  rw [Function.comp_apply]
  split
  · rename_i hid
    rw [h.eq_of_id hx hr hid]
    rfl
  · rfl

theorem hooked_addHook {id : RuleId} (h : Hooked s.rules (id :: waiting)) (hw : id ∉ waiting)
    {x : Rule} (hx : s.rule? id = some x) (huser : x.origin = .user)
    (hname : x.name.isSome = true) (hauto : x.isFact = true → x.autoNamed = true) :
    Hooked (s.addHook id).rules waiting := by
  obtain ⟨name, hname⟩ := Option.isSome_iff_exists.mp hname
  obtain ⟨hmem, rfl⟩ := of_rule? hx
  simp only [RuleStore.addHook, hx, hname]
  rw [rules_insert]
  exact h.append_hook hmem huser hw rfl rfl hname rfl hauto

theorem Coherent.hooked_rename (hc : s.Coherent) (h : Hooked s.rules waiting) {id : RuleId}
    (hw : id ∉ waiting) : Hooked (s.rename id).rules waiting := by
  cases hr : s.rule? id with
  | none =>
    rw [RuleStore.rename, hr]
    exact h
  | some r =>
    obtain ⟨hmem, rfl⟩ := of_rule? hr
    have hf (x : Rule) (hx : x ∈ s.rules) (hid : x.id = r.id) :
        r.withAutoName (s.newName r) = x.withAutoName (s.newName r) := by
      rw [hc.eq_of_id hx hmem hid]
    rw [rename_of_some hr]
    split
    · rename_i huser
      have hretitled := hc.retitle hmem
      have hrules := hc.rules_unhook_retitle hmem
      have hstored : r.withAutoName (s.newName r) ∈ ((s.retitle r).unhook r.id).rules := by
        rw [hrules]
        refine List.mem_map.mpr ⟨r, List.mem_filter.mpr ⟨hmem, ?_⟩, if_pos rfl⟩
        simp [huser]
      have hindexed : ((s.retitle r).unhook r.id).Indexed :=
        (hretitled.toIndexed.foldl_detach _).withGenerated _
      have hfound : ((s.retitle r).unhook r.id).rule? r.id = some (r.withAutoName (s.newName r)) :=
        hindexed.rule?_eq_some hstored
      refine hooked_addHook ?_ hw hfound huser rfl fun _ ↦ rfl
      rw [hrules]
      refine (h.unhook r.id).rename fun x hx ↦ ?_
      split
      · rename_i hid
        refine .inr ⟨fun _ ↦ ?_, _, hf x (List.mem_filter.mp hx).1 hid⟩
        rw [hid]
        exact .head _
      · exact .inl rfl
    · rename_i hnot
      rw [rules_retitle]
      refine h.rename fun x hx ↦ ?_
      split
      · rename_i hid
        refine .inr ⟨fun huser ↦ ?_, _, hf x hx hid⟩
        rw [hc.eq_of_id hx hmem hid] at huser
        exact absurd huser hnot
      · exact .inl rfl

theorem Coherent.hooked_foldl_rename (hc : s.Coherent) (h : Hooked s.rules waiting)
    {ids : List RuleId} (hw : ∀ id ∈ ids, id ∉ waiting) :
    Hooked (ids.foldl RuleStore.rename s).rules waiting := by
  induction ids generalizing s with
  | nil => exact h
  | cons id ids ih =>
    obtain ⟨hid, hids⟩ := List.forall_mem_cons.mp hw
    exact ih (hc.rename id) (hc.hooked_rename h hid) hids

theorem mem_addHook_of_mem {x : Rule} (hx : x ∈ s.rules) (id : RuleId) :
    x ∈ (s.addHook id).rules := by
  rw [addHook]
  split
  · split
    · rw [rules_insert]
      exact List.mem_append_left _ hx
    · exact hx
  · exact hx

/-- Renaming leaves all rules but the renamed one and its hooks as they are. -/
theorem Coherent.mem_rename (hc : s.Coherent) {x : Rule} (hx : x ∈ s.rules)
    (hhook : x.origin.isHook = false) {id : RuleId} (hid : x.id ≠ id) :
    x ∈ (s.rename id).rules := by
  cases hr : s.rule? id with
  | none =>
    rw [RuleStore.rename, hr]
    exact hx
  | some r =>
    obtain ⟨hmem, rfl⟩ := of_rule? hr
    have hretitled : x ∈ (s.retitle r).rules := by
      rw [rules_retitle]
      exact List.mem_map.mpr ⟨x, hx, if_neg hid⟩
    rw [rename_of_some hr]
    split
    · have hunhooked : x ∈ ((s.retitle r).unhook r.id).rules := by
        rw [(hc.retitle hmem).rules_unhook, List.mem_filter]
        refine ⟨hretitled, decide_eq_true fun horigin ↦ ?_⟩
        rw [horigin] at hhook
        cases hhook
      exact mem_addHook_of_mem hunhooked _
    · exact hretitled

theorem Coherent.mem_foldl_rename (hc : s.Coherent) {x : Rule} (hx : x ∈ s.rules)
    (hhook : x.origin.isHook = false) {ids : List RuleId} (hids : x.id ∉ ids) :
    x ∈ (ids.foldl RuleStore.rename s).rules := by
  induction ids generalizing s with
  | nil => exact hx
  | cons id ids ih =>
    rw [List.mem_cons, not_or] at hids
    exact ih (hc.rename id) (hc.mem_rename hx hhook hids.1) hids.2

theorem hooked_transposeAll (h : Hooked s.rules waiting) (sources : List Rule) :
    Hooked (s.transposeAll sources).rules waiting := by
  refine transposeAll_induction (motive := fun s ↦ Hooked s.rules waiting) h ?_
  intro s source c hs _ _ _
  rw [rules_insert]
  exact hs.append_transposition rfl

theorem Coherent.hooked_makeRoom (hc : s.Coherent) (h : Hooked s.rules waiting) (r : Rule) :
    Hooked (s.makeRoom r).rules waiting := by
  rw [makeRoom]
  split
  · rename_i T hfound
    obtain ⟨hmem, htransposition, -⟩ := hc.of_find? hfound
    have hrules : (s.dropGenerated T).rules = s.rules.filter (·.id != T.id) := by
      rw [RuleStore.dropGenerated]
      split
      · exact s.rules_detach T.id
      · exact s.rules_detach T.id
    have hstays (x : Rule) (hx : x ∈ s.rules) (hnot : x.origin.isTransposition = false) :
        (x.id != T.id) = true := by
      rw [bne_iff_ne]
      intro hid
      rw [hc.eq_of_id hx hmem hid, htransposition] at hnot
      cases hnot
    rw [hrules]
    refine h.filter fun k hk x hx horigin huser ↦ ?_
    rw [hstays k hk (by rw [horigin]; rfl), hstays x hx (by rw [huser]; rfl)]
  · exact h

theorem Coherent.makeRoom (hc : s.Coherent) (r : Rule) : (s.makeRoom r).Coherent := by
  rw [RuleStore.makeRoom]
  split
  · rename_i T hfound
    exact hc.dropGenerated (hc.of_find? hfound).1
  · exact hc

/-- A user's rule with its hook, after other rules gave way to its name. -/
theorem Coherent.hooked_enlarge (hc : s.Coherent) (h : Hooked s.rules []) {named : Rule}
    {ids : List RuleId} (hname : named.isFact = false → named.name.isSome = true)
    (hids : s.Yields ids) : Hooked (s.enlarge named ids).rules [] := by
  have hinserted : (s.insert named .user).Coherent := hc.insert fun hhook ↦ by cases hhook
  have hnew : ∀ id ∈ ids, id ≠ s.nextId := fun id hid ↦ Nat.ne_of_lt (hids id hid).1
  let x : Rule := { named with id := s.nextId, origin := .user }
  have hx : x ∈ (s.insert named .user).rules := by
    rw [rules_insert]
    exact List.mem_append_right _ (.head _)
  have hwaits : Hooked (s.insert named .user).rules [s.nextId] := by
    rw [rules_insert]
    exact h.append_user rfl hname fun r hr ↦ Nat.ne_of_lt (hc.id_lt r hr)
  have hrenamed : Hooked (ids.foldl RuleStore.rename (s.insert named .user)).rules [s.nextId] :=
    hinserted.hooked_foldl_rename hwaits fun id hid ↦ by simpa using hnew id hid
  have hstays : x ∈ (ids.foldl RuleStore.rename (s.insert named .user)).rules :=
    hinserted.mem_foldl_rename hx rfl fun hid ↦ hnew _ hid rfl
  have hindexed : (ids.foldl RuleStore.rename (s.insert named .user)).Indexed :=
    (hinserted.foldl_rename ids).toIndexed
  rw [RuleStore.enlarge]
  split
  · rename_i hfact
    refine hrenamed.of_fact fun y hy hid ↦ ?_
    rw [hindexed.eq_of_id hy hstays hid]
    exact hfact
  · rename_i hfact
    have hfact : named.isFact = false := Bool.eq_false_of_not_eq_true hfact
    have hfound : (ids.foldl RuleStore.rename (s.insert named .user)).rule? s.nextId = some x :=
      hindexed.rule?_eq_some hstays
    refine hooked_addHook hrenamed (by simp) hfound rfl (hname hfact) fun hfact' ↦ ?_
    rw [show x.isFact = named.isFact from rfl, hfact] at hfact'
    cases hfact'

theorem Coherent.hooked_add (hc : s.Coherent) (h : Hooked s.rules []) {r : Rule} {id : RuleId}
    (hadd : s.add r = .ok (id, s')) : Hooked s'.rules [] := by
  obtain ⟨-, named, ids, nextName, hsettle, rfl⟩ := add_spec hadd
  have hname : named.isFact = false → named.name.isSome = true := by
    rcases settleName_spec hsettle with ⟨name, hname, -, -, -, rfl, -⟩ |
      ⟨-, -, ⟨hfact, rfl, -⟩ | ⟨-, rfl, -⟩⟩
    · intro _
      rw [hname]
      rfl
    · intro hnot
      rw [hfact] at hnot
      cases hnot
    · exact fun _ ↦ rfl
  have hc₁ : RuleStore.Coherent { s with nextName } := hc.congr rfl rfl rfl rfl
  have hids : RuleStore.Yields { s with nextName } ids := hc.yields_of_settleName hsettle
  have henlarged := (hc₁.makeRoom named).hooked_enlarge (hc₁.hooked_makeRoom h named) hname
    (hids.makeRoom named)
  rw [RuleStore.install]
  split
  · exact hooked_transposeAll henlarged _
  · exact henlarged

/-- A removed rule's hook is among the rules that were generated from it. -/
theorem Coherent.hooked_without (hc : s.Coherent) (h : Hooked s.rules []) {r : Rule}
    (hr : r ∈ s.rules) (huser : r.origin = .user) : Hooked (s.without r.id).rules [] := by
  have hrules : (s.without r.id).rules =
      s.rules.filter fun x ↦ !(s.generatedFrom r.id ++ [r.id]).contains x.id :=
    rules_foldl_detach s _
  rw [hrules]
  refine h.filter fun k hk x hx horigin hxuser ↦ ?_
  rw [Bool.eq_iff_iff, Bool.not_eq_true', Bool.not_eq_true', ← Bool.not_eq_true,
    ← Bool.not_eq_true, not_iff_not, List.contains_iff_mem, List.contains_iff_mem,
    List.mem_append, List.mem_append, List.mem_singleton, List.mem_singleton,
    hc.mem_generatedFrom, hc.mem_generatedFrom]
  constructor
  · rintro (⟨y, hy, hid, hsource⟩ | hid)
    · rw [hc.eq_of_id hy hk hid, horigin] at hsource
      exact .inr (Option.some.inj hsource)
    · rw [hc.eq_of_id hk hr hid, huser] at horigin
      cases horigin
  · rintro (⟨y, hy, hid, hsource⟩ | hid)
    · rw [hc.eq_of_id hy hx hid, hxuser] at hsource
      cases hsource
    · exact .inl ⟨k, hk, rfl, by rw [horigin, hid]; rfl⟩

theorem Coherent.hooked_remove (hc : s.Coherent) (h : Hooked s.rules []) {r : Rule} {id : RuleId}
    (hremove : s.remove id = .ok (r, s')) : Hooked s'.rules [] := by
  obtain ⟨hr, huser, rfl⟩ := remove_spec hremove
  obtain ⟨hmem, rfl⟩ := of_rule? hr
  have hrest := hc.hooked_without h hmem huser
  split
  · exact hooked_transposeAll hrest _
  · exact hrest

theorem Coherent.hooked_untransposed (hc : s.Coherent) (h : Hooked s.rules []) :
    Hooked s.untransposed.rules [] := by
  have hrules : s.untransposed.rules = s.rules.filter fun x ↦
      !((s.rules.filter (·.origin.isTransposition)).map Rule.id).contains x.id :=
    rules_foldl_detach { s with transposing := false } _
  have hstays (x : Rule) (hx : x ∈ s.rules) (hnot : x.origin.isTransposition = false) :
      (!((s.rules.filter (·.origin.isTransposition)).map Rule.id).contains x.id) = true := by
    rw [Bool.not_eq_true', ← Bool.not_eq_true, List.contains_iff_mem, List.mem_map]
    rintro ⟨T, hT, hid⟩
    obtain ⟨hT, htransposition⟩ := List.mem_filter.mp hT
    rw [hc.eq_of_id hT hx hid, hnot] at htransposition
    cases htransposition
  rw [hrules]
  refine h.filter fun k hk x hx horigin huser ↦ ?_
  rw [hstays k hk (by rw [horigin]; rfl), hstays x hx (by rw [huser]; rfl)]

theorem Coherent.hooked_setTransposing (hc : s.Coherent) (h : Hooked s.rules []) (on : Bool) :
    Hooked (s.setTransposing on).rules [] := by
  rcases s.setTransposing_cases on with heq | heq | heq
  · rw [heq]
    exact h
  · rw [heq]
    have hon : Hooked (RuleStore.rules { s with transposing := true }) [] := h
    exact hooked_transposeAll hon _
  · rw [heq]
    exact hc.hooked_untransposed h

theorem Reachable.hooked (h : s.Reachable) : Hooked s.rules [] := by
  induction h with
  | empty transposing => exact .nil
  | add hs hadd ih => exact hs.coherent.hooked_add ih hadd
  | remove hs hremove ih => exact hs.coherent.hooked_remove ih hremove
  | setTransposing on hs ih => exact hs.coherent.hooked_setTransposing ih on

theorem ReachableBy.autoNamed_fact (h : s.ReachableBy (·.autoNamed = false)) :
    ∀ x ∈ s.rules, x.isFact = true → x.autoNamed = false := by
  refine h.forall_rules ?_ ?_ ?_ ?_
  · intro given r id hp hsettled _ hfact
    rcases hsettled with rfl | ⟨hnot, n, rfl⟩
    · exact hp
    · cases hnot.symm.trans hfact
  · intro r name id _ _ _
    rfl
  · intro source c n id hc hfact
    cases (Rule.mem_contrapositives hc).2.2.2.symm.trans hfact
  · intro r n hr hauto hfact
    cases (hr hfact).symm.trans hauto

/-- Hooks follow names. If no rule comes with an automatic name, each stored user's rule with an
antecedent has a name and exactly one hook, a fact of the rule's degree whose consequent is the name
that the rule has now; and each stored hook is that of such a rule. -/
theorem ReachableBy.hooks_follow_names (h : s.ReachableBy (·.autoNamed = false)) :
    (∀ x ∈ s.rules, x.origin = .user → x.isFact = false →
      ∃ name, x.name = some name ∧ ∃ k, s.rules.filter (·.origin = .hook x.id) = [k] ∧
        k.consequent = name ∧ k.antecedent = [] ∧ k.degree = x.degree) ∧
    ∀ k ∈ s.rules, ∀ id, k.origin = .hook id →
      ∃ x ∈ s.rules, x.id = id ∧ x.origin = .user ∧ x.isFact = false := by
  have hindexed := h.reachable.indexed
  have hhooked := h.reachable.hooked
  constructor
  · intro x hx huser hfact
    obtain ⟨k, hk, horigin⟩ := hhooked.exists_hook x hx huser hfact (List.not_mem_nil)
    obtain ⟨-, hkfact, y, hy, hid, -, hname, hdegree, -⟩ := hhooked.asserted k hk x.id horigin
    rw [hindexed.eq_of_id hy hx hid] at hname hdegree
    refine ⟨k.consequent, hname, k, ?_, rfl, hkfact, hdegree.symm⟩
    have hnodup : (s.rules.filter (·.origin = .hook x.id)).Nodup :=
      (List.Nodup.of_map Rule.id hindexed.nodup).filter _
    refine List.perm_singleton.mp
      ((List.perm_ext_iff_of_nodup hnodup (List.nodup_singleton k)).mpr fun k' ↦ ?_)
    rw [List.mem_filter, decide_eq_true_iff, List.mem_singleton]
    constructor
    · rintro ⟨hk', horigin'⟩
      exact hindexed.eq_of_id hk' hk (hhooked.unique k' hk' k hk x.id horigin' horigin)
    · rintro rfl
      exact ⟨hk, horigin⟩
  · intro k hk id horigin
    obtain ⟨-, -, x, hx, hid, huser, -, -, hauto⟩ := hhooked.asserted k hk id horigin
    refine ⟨x, hx, hid, huser, ?_⟩
    rw [← Bool.not_eq_true]
    intro hfact
    cases (h.autoNamed_fact x hx hfact).symm.trans (hauto hfact)

def yielded : RuleStore :=
  (Engine.addAll ⟨.default, .empty false⟩ [.plain (.const "p") [.const "q"] .one,
    (Rule.plain (.const "a") [.const "b"] .one).withName (.const "r1")]).2.store

theorem yielded_hooked :
    yielded.rules.map Rule.text = ["p <- q.", "a <- b.", "r2.", "r1."] ∧
    (∀ x ∈ yielded.rules, x.origin = .user → x.isFact = false →
      ∃ name, x.name = some name ∧ ∃ k, yielded.rules.filter (·.origin = .hook x.id) = [k] ∧
        k.consequent = name ∧ k.antecedent = [] ∧ k.degree = x.degree) ∧
    ∀ k ∈ yielded.rules, ∀ id, k.origin = .hook id →
      ∃ x ∈ yielded.rules, x.id = id ∧ x.origin = .user ∧ x.isFact = false := by
  have hreachable : yielded.ReachableBy (·.autoNamed = false) :=
    Engine.addAll_reachableBy (.empty false) (by simp [Rule.plain, Rule.withName])
  exact ⟨by decide +kernel, hreachable.hooks_follow_names⟩

end RuleStore

end Argumentation
