import Argumentation.Proofs.RuleStore.Transpositions
import Mathlib.Logic.Relation

namespace Argumentation

def Rule.stored (r : Rule) (id : RuleId) (origin : Origin) : Rule :=
  { r with id, origin }

namespace RuleStore

variable {s s' : RuleStore} {p : Rule → Prop}

theorem of_rule? {id : RuleId} {r : Rule} (h : s.rule? id = some r) : r ∈ s.rules ∧ r.id = id :=
  ⟨List.mem_of_find?_eq_some h, by simpa using List.find?_some h⟩

theorem Indexed.exists_append (h : s.Indexed) {r : Rule} (hr : r ∈ s.rules) :
    ∃ l₁ l₂, s.rules = l₁ ++ r :: l₂ ∧ (∀ x ∈ l₁, x.id ≠ r.id) ∧ ∀ x ∈ l₂, x.id ≠ r.id := by
  obtain ⟨l₁, l₂, hsplit⟩ := List.append_of_mem hr
  have hnodup := h.nodup
  rw [hsplit, List.map_append, List.map_cons] at hnodup
  have hfresh := (List.nodup_middle.mp hnodup)
  rw [List.nodup_cons, List.mem_append, not_or] at hfresh
  exact ⟨l₁, l₂, hsplit, fun x hx hid ↦ hfresh.1.1 (List.mem_map.mpr ⟨x, hx, hid⟩),
    fun x hx hid ↦ hfresh.1.2 (List.mem_map.mpr ⟨x, hx, hid⟩)⟩

theorem filter_ne_append {r : Rule} {l₁ l₂ : List Rule} (h₁ : ∀ x ∈ l₁, x.id ≠ r.id)
    (h₂ : ∀ x ∈ l₂, x.id ≠ r.id) : (l₁ ++ r :: l₂).filter (·.id != r.id) = l₁ ++ l₂ := by
  rw [List.filter_append, List.filter_cons_of_neg (by simp),
    List.filter_eq_self.mpr fun x hx ↦ bne_iff_ne.mpr (h₁ x hx),
    List.filter_eq_self.mpr fun x hx ↦ bne_iff_ne.mpr (h₂ x hx)]

theorem Indexed.perm_cons (h : s.Indexed) {r : Rule} (hr : r ∈ s.rules) :
    s.rules.Perm (r :: s.rules.filter (·.id != r.id)) := by
  obtain ⟨l₁, l₂, hsplit, h₁, h₂⟩ := h.exists_append hr
  rw [hsplit, filter_ne_append h₁ h₂]
  exact List.perm_middle

theorem Indexed.perm_replace (h : s.Indexed) {r : Rule} (hr : r ∈ s.rules) (renamed : Rule) :
    (s.rules.map fun x ↦ if x.id = r.id then renamed else x).Perm
      (renamed :: s.rules.filter (·.id != r.id)) := by
  obtain ⟨l₁, l₂, hsplit, h₁, h₂⟩ := h.exists_append hr
  have hsame (l : List Rule) (hl : ∀ x ∈ l, x.id ≠ r.id) :
      l.map (fun x ↦ if x.id = r.id then renamed else x) = l := by
    conv => rhs; rw [← List.map_id l]
    exact List.map_congr_left fun x hx ↦ if_neg (hl x hx)
  rw [hsplit, filter_ne_append h₁ h₂, List.map_append, List.map_cons, if_pos rfl, hsame l₁ h₁,
    hsame l₂ h₂]
  exact List.perm_middle

def newName (s : RuleStore) (r : Rule) : Term :=
  ((s.unindexName r).takeName r).1

def retitle (s : RuleStore) (r : Rule) : RuleStore :=
  let indexed := ((s.unindexName r).takeName r).2.indexName (r.withAutoName (s.newName r))
  { indexed with
    rules := indexed.rules.map fun x ↦ if x.id = r.id then r.withAutoName (s.newName r) else x }

theorem retitle_eq (s : RuleStore) (r : Rule) :
    ∃ nextName, s.retitle r =
      { s with
        rules := s.rules.map fun x ↦ if x.id = r.id then r.withAutoName (s.newName r) else x
        names := ((s.unindexName r).indexName (r.withAutoName (s.newName r))).names
        nextName } := by
  obtain ⟨names, hnames⟩ := s.unindexName_eq r
  refine ⟨((s.unindexName r).takeName r).2.nextName, ?_⟩
  rw [retitle, newName, hnames]
  rfl

theorem rules_retitle (s : RuleStore) (r : Rule) : (s.retitle r).rules =
    s.rules.map fun x ↦ if x.id = r.id then r.withAutoName (s.newName r) else x := by
  obtain ⟨nextName, heq⟩ := s.retitle_eq r
  rw [heq]

theorem mem_retitle {r x : Rule} (hx : x ∈ (s.retitle r).rules) :
    x ∈ s.rules ∧ x.id ≠ r.id ∨ x = r.withAutoName (s.newName r) := by
  rw [rules_retitle] at hx
  obtain ⟨y, hy, rfl⟩ := List.mem_map.mp hx
  split
  · exact .inr rfl
  · exact .inl ⟨hy, ‹_›⟩

def ownHooks (s : RuleStore) (id : RuleId) : List RuleId :=
  (s.generatedFrom id).filter fun h ↦ (s.rule? h).any (·.origin.isHook)

def unhook (s : RuleStore) (id : RuleId) : RuleStore :=
  { (s.ownHooks id).foldl detach s with
    generated := (s.ownHooks id).foldl (fun g h ↦ g.drop id h) s.generated }

theorem rename_of_some {id : RuleId} {r : Rule} (hr : s.rule? id = some r) :
    s.rename id =
      if r.origin = .user then ((s.retitle r).unhook id).addHook id else s.retitle r := by
  obtain ⟨-, rfl⟩ := of_rule? hr
  simp only [rename, hr, unhook, ownHooks, retitle, newName, generated_foldl_detach]

inductive Change (p : Rule → Prop) : RuleStore → RuleStore → Prop
  /-- Nothing that concerns ids, names and predicates; what was generated is kept without gaps. -/
  | aside {s s' : RuleStore} (rules : s'.rules = s.rules)
    (conclusions : s'.conclusions = s.conclusions) (names : s'.names = s.names)
    (catalogue : s'.catalogue = s.catalogue) (nextId : s'.nextId = s.nextId)
    (generated : s.generated.Trimmed → s'.generated.Trimmed) : Change p s s'
  /-- A user's rule, under the name that it came with or an automatic one. If it has a predicate, it
  is no variant of a hook or of another user's rule. -/
  | user (s : RuleStore) {given r : Rule} (hp : p given)
    (settled : r = given ∨ given.isFact = false ∧ ∃ n, r = given.withAutoName (autoName n given))
    (literal : ∀ name, r.name = some name → name.isLiteral = true)
    (new : given.consequent.predicate?.isSome = true →
      ∀ x ∈ s.rules, x.origin.isTransposition = false → x.isVariant r = false) :
    Change p s (s.insert r .user)
  | hook {s : RuleStore} {r : Rule} (mem : r ∈ s.rules) {name : Term} (hname : r.name = some name) :
    Change p s (s.insert (.plain name [] r.degree) (.hook r.id))
  | transposition (s : RuleStore) {source c : Rule} (mem : c ∈ source.contrapositives)
    (new : s.contains c = false) : Change p s
      ((s.takeName c).2.insert (c.withAutoName (s.takeName c).1) (.transposition source.id))
  | detach (s : RuleStore) (id : RuleId) : Change p s (s.detach id)
  | retitle {s : RuleStore} {r : Rule} (mem : r ∈ s.rules) (auto : r.autoNamed = true) :
    Change p s (s.retitle r)

theorem Indexed.retitle (h : s.Indexed) {r : Rule} (hr : r ∈ s.rules) :
    (s.retitle r).Indexed := by
  obtain ⟨nextName, heq⟩ := s.retitle_eq r
  rw [heq]
  exact (h.replace hr (r.withAutoName (s.newName r)) rfl rfl).congr rfl rfl rfl

theorem Indexed.change (h : s.Indexed) (hchange : Change p s s') : s'.Indexed := by
  cases hchange with
  | aside hrules hconclusions _ _ hnext _ => exact h.congr hrules hconclusions hnext
  | user => exact h.insert _ _
  | hook => exact h.insert _ _
  | @transposition source c _ _ =>
    have hnamed : (s.takeName c).2.Indexed := h.congr rfl rfl rfl
    exact hnamed.insert _ _
  | detach => exact h.detach _
  | retitle hr _ => exact h.retitle hr

abbrev Changes (p : Rule → Prop) : RuleStore → RuleStore → Prop :=
  Relation.ReflTransGen (Change p)

theorem Changes.single (h : Change p s s') : Changes p s s' :=
  Relation.ReflTransGen.single h

theorem Change.withGenerated {generated : RuleIndex RuleId}
    (h : s.generated.Trimmed → generated.Trimmed) : Change p s { s with generated } :=
  .aside rfl rfl rfl rfl rfl h

theorem foldl_detach_changes (s : RuleStore) (ids : List RuleId) :
    Changes p s (ids.foldl RuleStore.detach s) := by
  induction ids generalizing s with
  | nil => exact .refl
  | cons id ids ih => exact .head (.detach s id) (ih _)

theorem withdraw_changes (s : RuleStore) (ids : List RuleId) {generated : RuleIndex RuleId}
    (h : s.generated.Trimmed → generated.Trimmed) :
    Changes p s { ids.foldl RuleStore.detach s with generated } := by
  refine (foldl_detach_changes s ids).tail (.withGenerated fun htrimmed ↦ h ?_)
  rwa [generated_foldl_detach] at htrimmed

theorem dropGenerated_changes (s : RuleStore) (r : Rule) : Changes p s (s.dropGenerated r) := by
  rw [dropGenerated]
  split
  · exact .tail (.single (.detach s r.id)) (.withGenerated fun _ ↦ RuleIndex.trimmed_drop _ _ _)
  · exact .single (.detach s r.id)

theorem addHook_changes (s : RuleStore) (id : RuleId) : Changes p s (s.addHook id) := by
  rw [addHook]
  split
  · rename_i r hr
    split
    · obtain ⟨hmem, rfl⟩ := of_rule? hr
      exact .single (.hook hmem ‹_›)
    · exact .refl
  · exact .refl

theorem unhook_changes (s : RuleStore) (id : RuleId) : Changes p s (s.unhook id) :=
  withdraw_changes s _ fun h ↦ h.foldl_drop id _

theorem rename_changes {id : RuleId} (h : ∀ r ∈ s.rules, r.id = id → r.autoNamed = true) :
    Changes p s (s.rename id) := by
  cases hr : s.rule? id with
  | none =>
    rw [rename, hr]
  | some r =>
    obtain ⟨hmem, hid⟩ := of_rule? hr
    have hretitled : Changes p s (s.retitle r) := .single (.retitle hmem (h r hmem hid))
    rw [rename_of_some hr]
    split
    · exact (hretitled.trans (unhook_changes _ id)).trans (addHook_changes _ id)
    · exact hretitled

theorem transposeAll_induction {motive : RuleStore → Prop} {sources : List Rule} (hs : motive s)
    (step : ∀ s source c, motive s → source ∈ sources → c ∈ source.contrapositives →
      s.contains c = false → motive
        ((s.takeName c).2.insert (c.withAutoName (s.takeName c).1) (.transposition source.id))) :
    motive (s.transposeAll sources) := by
  rw [transposeAll]
  refine List.foldlRecOn sources _ hs fun s hs source hsource ↦ ?_
  rw [transpose]
  refine List.foldlRecOn source.contrapositives _ hs fun s hs c hc ↦ ?_
  dsimp only
  split
  · exact hs
  · exact step s source c hs hsource hc (Bool.eq_false_of_not_eq_true ‹_›)

theorem transposeAll_changes (s : RuleStore) (sources : List Rule) :
    Changes p s (s.transposeAll sources) := by
  refine transposeAll_induction (motive := Changes p s) .refl ?_
  intro u source c hs _ hc hnew
  exact hs.tail (.transposition u hc hnew)

theorem forall₂_of_mapM {α β ε : Type} {f : α → Except ε β} {xs : List α} {ys : List β}
    (h : xs.mapM f = .ok ys) : List.Forall₂ (fun x y ↦ f x = .ok y) xs ys := by
  induction xs generalizing ys with
  | nil =>
    cases h
    exact .nil
  | cons x xs ih =>
    rw [List.mapM_cons] at h
    cases hx : f x with
    | error e =>
      rw [hx] at h
      cases h
    | ok y =>
      cases hxs : xs.mapM f with
      | error e =>
        rw [hx, hxs] at h
        cases h
      | ok ys' =>
        rw [hx, hxs] at h
        cases h
        exact .cons hx (ih hxs)

/-- All rules that a name unifies with give way to it, and the names of all of them are automatic.
-/
theorem displaced_ok {name : Term} {ids : List RuleId} (h : s.displaced name = .ok ids) :
    ids = s.named name ∧ ∀ id ∈ ids, ∀ r, s.rule? id = some r → r.autoNamed = true := by
  have hids := forall₂_of_mapM h
  clear h
  generalize s.named name = named at hids ⊢
  induction hids with
  | nil => exact ⟨rfl, by simp⟩
  | @cons id id' named ids hid _ ih =>
    have hstep : id' = id ∧ ∀ r, s.rule? id = some r → r.autoNamed = true := by
      cases hr : s.rule? id with
      | none =>
        rw [hr] at hid
        cases hid
        exact ⟨rfl, by simp⟩
      | some r =>
        simp only [hr] at hid
        split at hid
        · rename_i hauto
          cases hid
          refine ⟨rfl, fun r' hr' ↦ ?_⟩
          cases hr'
          exact hauto
        · cases hid
    obtain ⟨rfl, hauto⟩ := hstep
    exact ⟨congrArg _ ih.1, List.forall_mem_cons.mpr ⟨hauto, ih.2⟩⟩

def Yields (s : RuleStore) (ids : List RuleId) : Prop :=
  ∀ id ∈ ids, id < s.nextId ∧ ∀ r ∈ s.rules, r.id = id → r.autoNamed = true

theorem Indexed.yields_of_displaced (h : s.Indexed) {name : Term} {ids : List RuleId}
    (hids : s.displaced name = .ok ids) : s.Yields ids := by
  obtain ⟨rfl, hauto⟩ := displaced_ok hids
  intro id hid
  cases hp : name.predicate? with
  | none => simp [named, hp] at hid
  | some p =>
    have hnamed : ((s.rule? id).bind (·.name)).any (·.unifies name) = true := by
      simp only [named, hp, List.mem_filter] at hid
      exact hid.2
    cases hr : s.rule? id with
    | none =>
      rw [hr] at hnamed
      cases hnamed
    | some r =>
      obtain ⟨hmem, rfl⟩ := of_rule? hr
      refine ⟨h.id_lt r hmem, fun r' hr' hid' ↦ ?_⟩
      rw [h.eq_of_id hr' hmem hid']
      exact hauto r.id hid r hr

theorem nextId_detach (s : RuleStore) (id : RuleId) : (s.detach id).nextId = s.nextId := by
  obtain ⟨_, _, _, _, hdetach⟩ := s.detach_eq id
  rw [hdetach]

theorem nextId_foldl_detach (s : RuleStore) (ids : List RuleId) :
    (ids.foldl detach s).nextId = s.nextId := by
  obtain ⟨_, _, _, _, hrest⟩ := s.foldl_detach_eq ids
  rw [hrest]

theorem nextId_retitle (s : RuleStore) (r : Rule) : (s.retitle r).nextId = s.nextId := by
  obtain ⟨nextName, heq⟩ := s.retitle_eq r
  rw [heq]

theorem rules_unhook (s : RuleStore) (id : RuleId) :
    (s.unhook id).rules = s.rules.filter fun r ↦ !(s.ownHooks id).contains r.id :=
  rules_foldl_detach s _

theorem nextId_unhook (s : RuleStore) (id : RuleId) : (s.unhook id).nextId = s.nextId :=
  nextId_foldl_detach s _

theorem mem_addHook {id : RuleId} {x : Rule} (hx : x ∈ (s.addHook id).rules) :
    x ∈ s.rules ∨ x.id = s.nextId := by
  rw [addHook] at hx
  split at hx
  · split at hx
    · rw [rules_insert] at hx
      rcases List.mem_append.mp hx with hx | hx
      · exact .inl hx
      · rw [List.mem_singleton.mp hx]
        exact .inr rfl
    · exact .inl hx
  · exact .inl hx

theorem nextId_le_addHook (s : RuleStore) (id : RuleId) : s.nextId ≤ (s.addHook id).nextId := by
  rw [addHook]
  split
  · split
    · exact Nat.le_succ _
    · exact Nat.le_refl _
  · exact Nat.le_refl _

theorem mem_rename_cases {id : RuleId} {x : Rule} (hx : x ∈ (s.rename id).rules) :
    x ∈ s.rules ∨ x.id = s.nextId ∨ x.id = id ∧ x.autoNamed = true := by
  cases hr : s.rule? id with
  | none =>
    rw [rename, hr] at hx
    exact .inl hx
  | some r =>
    obtain ⟨-, rfl⟩ := of_rule? hr
    have hretitled (hx : x ∈ (s.retitle r).rules) :
        x ∈ s.rules ∨ x.id = s.nextId ∨ x.id = r.id ∧ x.autoNamed = true := by
      rcases mem_retitle hx with ⟨hx, -⟩ | rfl
      · exact .inl hx
      · exact .inr (.inr ⟨rfl, rfl⟩)
    rw [rename_of_some hr] at hx
    split at hx
    · rcases mem_addHook hx with hx | hid
      · rw [rules_unhook] at hx
        exact hretitled (List.mem_filter.mp hx).1
      · exact .inr (.inl (hid.trans ((nextId_unhook _ r.id).trans (s.nextId_retitle r))))
    · exact hretitled hx

theorem mem_rename {id : RuleId} {x : Rule} (hx : x ∈ (s.rename id).rules) :
    x ∈ s.rules ∨ x.id = s.nextId ∨ x.autoNamed = true :=
  (mem_rename_cases hx).imp_right fun h ↦ h.imp_right And.right

theorem nextId_le_rename (s : RuleStore) (id : RuleId) : s.nextId ≤ (s.rename id).nextId := by
  cases hr : s.rule? id with
  | none => rw [rename, hr]
  | some r =>
    rw [rename_of_some hr]
    split
    · refine Nat.le_trans (Nat.le_of_eq ?_) (nextId_le_addHook _ id)
      exact ((nextId_unhook _ id).trans (s.nextId_retitle r)).symm
    · exact Nat.le_of_eq (s.nextId_retitle r).symm

theorem Yields.mono {ids : List RuleId} (h : s.Yields ids) (hnext : s.nextId ≤ s'.nextId)
    (hmem : ∀ x ∈ s'.rules, x ∈ s.rules ∨ x.id = s.nextId ∨ x.autoNamed = true) :
    s'.Yields ids := by
  intro id hid
  obtain ⟨hlt, hauto⟩ := h id hid
  refine ⟨Nat.lt_of_lt_of_le hlt hnext, fun x hx hxid ↦ ?_⟩
  rcases hmem x hx with hx | hnew | hx
  · exact hauto x hx hxid
  · exact absurd (hxid.symm.trans hnew) (Nat.ne_of_lt hlt)
  · exact hx

theorem foldl_rename_changes {ids : List RuleId} (h : s.Yields ids) :
    Changes p s (ids.foldl rename s) := by
  induction ids generalizing s with
  | nil => exact .refl
  | cons id ids ih =>
    refine (rename_changes (h id (.head _)).2).trans (ih ?_)
    have hrest : s.Yields ids := fun id' hid' ↦ h id' (.tail _ hid')
    exact hrest.mono (s.nextId_le_rename id) fun _ ↦ mem_rename

theorem settleName_spec {r named : Rule} {ids : List RuleId}
    (h : s.settleName r = .ok (named, ids, s')) :
    (∃ name, r.name = some name ∧ name.isLiteral = true ∧ name.unifies r.consequent = false ∧
      s.displaced name = .ok ids ∧ named = r ∧ s' = s) ∨
    r.name = none ∧ ids = [] ∧ (r.isFact = true ∧ named = r ∧ s' = s ∨
      r.isFact = false ∧ named = r.withAutoName (s.takeName r).1 ∧ s' = (s.takeName r).2) := by
  rw [settleName] at h
  split at h
  · rename_i name hname
    split at h
    · cases h
    · rename_i hliteral
      split at h
      · cases h
      · rename_i hunifies
        cases hdisplaced : s.displaced name with
        | error e =>
          rw [hdisplaced] at h
          cases h
        | ok ids' =>
          rw [hdisplaced] at h
          cases h
          exact .inl ⟨name, hname, by simpa using hliteral, Bool.eq_false_of_not_eq_true hunifies,
            hdisplaced, rfl, rfl⟩
  · rename_i hname
    split at h
    · cases h
      exact .inr ⟨hname, rfl, .inl ⟨‹_›, rfl, rfl⟩⟩
    · cases h
      exact .inr ⟨hname, rfl, .inr ⟨Bool.eq_false_of_not_eq_true ‹_›, rfl, rfl⟩⟩

def install (s : RuleStore) (named : Rule) (ids : List RuleId) : RuleStore :=
  let enlarged := s.enlarge named ids
  if enlarged.transposing then enlarged.transposeAll (enlarged.rule? s.nextId).toList else enlarged

theorem add_spec {r : Rule} {id : RuleId} (h : s.add r = .ok (id, s')) :
    s.find? r (!·.origin.isTransposition) = none ∧
      ∃ named ids nextName, s.settleName r = .ok (named, ids, { s with nextName }) ∧
        s' = (makeRoom { s with nextName } named).install named ids := by
  rw [add] at h
  split at h
  · cases h
  · rename_i hnew
    refine ⟨Option.not_isSome_iff_eq_none.mp hnew, ?_⟩
    cases hsettle : s.settleName r with
    | error e =>
      rw [hsettle] at h
      cases h
    | ok settled =>
      obtain ⟨named, ids, s₁⟩ := settled
      rw [hsettle] at h
      obtain ⟨⟨nextName, rfl⟩, -⟩ := settleName_cases hsettle
      cases h
      exact ⟨named, ids, nextName, rfl, rfl⟩

def without (s : RuleStore) (id : RuleId) : RuleStore :=
  { (s.generatedFrom id ++ [id]).foldl detach s with generated := s.generated.erase id }

theorem remove_spec {r : Rule} {id : RuleId} (h : s.remove id = .ok (r, s')) :
    s.rule? id = some r ∧ r.origin = .user ∧
      s' = if (s.without id).transposing then
        (s.without id).transposeAll (s.without id).strictUserRules else s.without id := by
  rw [remove] at h
  split at h
  · cases h
  · rename_i hr
    split at h
    · cases h
    · rename_i hsource
      simp only [removed_eq] at h
      cases h
      refine ⟨hr, ?_, rfl⟩
      cases horigin : r.origin with
      | user => rfl
      | hook source => simp [horigin, Origin.source?] at hsource
      | transposition source => simp [horigin, Origin.source?] at hsource

def untransposed (s : RuleStore) : RuleStore :=
  let gone := (s.rules.filter (·.origin.isTransposition)).map (·.id)
  { gone.foldl detach { s with transposing := false } with
    generated := s.generated.dropAll gone }

theorem setTransposing_on (h : s.transposing = false) :
    s.setTransposing true = transposeAll { s with transposing := true } s.strictUserRules := by
  rw [setTransposing, if_neg (by rw [h]; decide), if_pos rfl]
  rfl

theorem setTransposing_off (h : s.transposing = true) :
    s.setTransposing false = s.untransposed := by
  rw [setTransposing, if_neg (by rw [h]; decide)]
  simp only [untransposed, generated_foldl_detach, Bool.false_eq_true, if_false]

theorem setTransposing_cases (s : RuleStore) (on : Bool) : s.setTransposing on = s ∨
    s.setTransposing on = transposeAll { s with transposing := true } s.strictUserRules ∨
    s.setTransposing on = s.untransposed := by
  by_cases hon : s.transposing = on
  · exact .inl (by rw [setTransposing, if_pos hon])
  · cases on with
    | true => exact .inr (.inl (setTransposing_on (Bool.eq_false_of_not_eq_true hon)))
    | false => exact .inr (.inr (setTransposing_off (Bool.eq_true_of_not_eq_false hon)))

/-- The stores that come about by the operations on them, if all rules that are added meet a
condition. -/
inductive ReachableBy (p : Rule → Prop) : RuleStore → Prop
  | empty (transposing : Bool) : ReachableBy p (.empty transposing)
  | add {s s' : RuleStore} {r : Rule} {id : RuleId} :
      ReachableBy p s → p r → s.add r = .ok (id, s') → ReachableBy p s'
  | remove {s s' : RuleStore} {r : Rule} {id : RuleId} :
      ReachableBy p s → s.remove id = .ok (r, s') → ReachableBy p s'
  | setTransposing {s : RuleStore} (on : Bool) :
      ReachableBy p s → ReachableBy p (s.setTransposing on)

theorem ReachableBy.reachable (h : s.ReachableBy p) : s.Reachable := by
  induction h with
  | empty transposing => exact .empty transposing
  | add _ _ hadd ih => exact ih.add hadd
  | remove _ hremove ih => exact ih.remove hremove
  | setTransposing on _ ih => exact ih.setTransposing on

theorem Reachable.reachableBy (h : s.Reachable) : s.ReachableBy fun _ ↦ True := by
  induction h with
  | empty transposing => exact .empty transposing
  | add _ hadd ih => exact ih.add trivial hadd
  | remove _ hremove ih => exact ih.remove hremove
  | setTransposing on _ ih => exact ih.setTransposing on

theorem makeRoom_changes (s : RuleStore) (r : Rule) : Changes p s (s.makeRoom r) := by
  rw [makeRoom]
  split
  · exact dropGenerated_changes s _
  · exact .refl

theorem settleName_user {r named : Rule} {ids : List RuleId}
    (h : s.settleName r = .ok (named, ids, s')) :
    (named = r ∨ r.isFact = false ∧ ∃ n, named = r.withAutoName (autoName n r)) ∧
      ∀ name, named.name = some name → name.isLiteral = true := by
  rcases settleName_spec h with ⟨name, hname, hliteral, -, -, rfl, -⟩ |
    ⟨hname, -, ⟨-, rfl, -⟩ | ⟨hfact, rfl, -⟩⟩
  · refine ⟨.inl rfl, fun name' hname' ↦ ?_⟩
    rw [hname] at hname'
    cases hname'
    exact hliteral
  · refine ⟨.inl rfl, fun name' hname' ↦ ?_⟩
    rw [hname] at hname'
    cases hname'
  · refine ⟨.inr ⟨hfact, _, rfl⟩, fun name' hname' ↦ ?_⟩
    cases hname'
    rfl

/-- What comes after the other rules gave way: the hook and the contrapositives. -/
theorem install_changes (s : RuleStore) (named : Rule) (ids : List RuleId) :
    Changes p (ids.foldl rename (s.insert named .user)) (s.install named ids) := by
  have henlarged : Changes p (ids.foldl rename (s.insert named .user)) (s.enlarge named ids) := by
    rw [enlarge]
    split
    · exact .refl
    · exact addHook_changes _ _
  rw [install]
  split
  · exact henlarged.trans (transposeAll_changes _ _)
  · exact henlarged

theorem Indexed.yields_of_settleName (h : s.Indexed) {r named : Rule} {ids : List RuleId}
    (hsettle : s.settleName r = .ok (named, ids, s')) : s.Yields ids := by
  rcases settleName_spec hsettle with ⟨name, -, -, -, hids, -⟩ | ⟨-, rfl, -⟩
  · exact h.yields_of_displaced hids
  · simp [Yields]

theorem Yields.insert {ids : List RuleId} (h : s.Yields ids) (r : Rule) (origin : Origin) :
    (s.insert r origin).Yields ids := by
  refine h.mono (Nat.le_succ _) fun x hx ↦ ?_
  rw [rules_insert] at hx
  rcases List.mem_append.mp hx with hx | hx
  · exact .inl hx
  · rw [List.mem_singleton.mp hx]
    exact .inr (.inl rfl)

theorem makeRoom_frame (s : RuleStore) (r : Rule) :
    (s.makeRoom r).nextId = s.nextId ∧ ∀ x ∈ (s.makeRoom r).rules, x ∈ s.rules := by
  have hdropped (T : Rule) : (s.dropGenerated T).nextId = s.nextId ∧
      ∀ x ∈ (s.dropGenerated T).rules, x ∈ s.rules := by
    have hdetached : ∀ x ∈ (s.detach T.id).rules, x ∈ s.rules := by
      rw [rules_detach]
      exact fun x hx ↦ (List.mem_filter.mp hx).1
    rw [dropGenerated]
    split
    · exact ⟨s.nextId_detach T.id, hdetached⟩
    · exact ⟨s.nextId_detach T.id, hdetached⟩
  rw [makeRoom]
  split
  · exact hdropped _
  · exact ⟨rfl, fun _ hx ↦ hx⟩

theorem Yields.makeRoom {ids : List RuleId} (h : s.Yields ids) (r : Rule) :
    (s.makeRoom r).Yields ids :=
  h.mono (Nat.le_of_eq (s.makeRoom_frame r).1.symm) fun x hx ↦ .inl ((s.makeRoom_frame r).2 x hx)

/-- What an operation that adds a rule does before it comes in, and that it only makes changes of
its own after that. -/
theorem Indexed.add_split (h : s.Indexed) {r : Rule} {id : RuleId}
    (hadd : s.add r = .ok (id, s')) : ∃ (named : Rule) (u : RuleStore),
      (named = r ∨ ∃ n, named = r.withAutoName (autoName n r)) ∧ (∀ x ∈ u.rules, x ∈ s.rules) ∧
      Changes (fun _ ↦ False) (u.insert named .user) s' := by
  obtain ⟨-, named, ids, nextName, hsettle, rfl⟩ := add_spec hadd
  have hids : RuleStore.Yields { s with nextName } ids := h.yields_of_settleName hsettle
  refine ⟨named, makeRoom { s with nextName } named,
    (settleName_user hsettle).1.imp_right And.right, (makeRoom_frame { s with nextName } named).2,
    ?_⟩
  exact (foldl_rename_changes ((hids.makeRoom named).insert named .user)).trans
    (install_changes _ named ids)

theorem add_changes (h : s.Coherent) {r : Rule} {id : RuleId} (hp : p r)
    (hadd : s.add r = .ok (id, s')) : Changes p s s' := by
  obtain ⟨hnone, named, ids, nextName, hsettle, rfl⟩ := add_spec hadd
  have hids : RuleStore.Yields { s with nextName } ids := h.yields_of_settleName hsettle
  have hstart : Changes p s { s with nextName } := .single (.aside rfl rfl rfl rfl rfl fun h ↦ h)
  have hroom := hstart.trans (makeRoom_changes _ named)
  have huser : Changes p (makeRoom { s with nextName } named)
      ((makeRoom { s with nextName } named).insert named .user) := by
    obtain ⟨hsettled, hliteral⟩ := settleName_user hsettle
    refine .single (.user _ hp hsettled hliteral fun hpredicate x hx hnot ↦ ?_)
    have hvariant : x.isVariant named = x.isVariant r := by
      rcases hsettled with rfl | ⟨-, n, rfl⟩
      · rfl
      · rfl
    rw [hvariant]
    have hx : x ∈ s.rules := (makeRoom_frame { s with nextName } named).2 x hx
    exact h.of_find?_none hnone hpredicate hx (by rw [hnot]; rfl)
  have hrenamed := foldl_rename_changes (p := p) ((hids.makeRoom named).insert named .user)
  exact hroom.trans (huser.trans (hrenamed.trans (install_changes _ named ids)))

theorem without_changes (s : RuleStore) (id : RuleId) : Changes p s (s.without id) :=
  withdraw_changes s _ fun h ↦ h.erase id

theorem remove_changes {r : Rule} {id : RuleId} (hremove : s.remove id = .ok (r, s')) :
    Changes p s s' := by
  obtain ⟨-, -, rfl⟩ := remove_spec hremove
  split
  · exact (without_changes s id).trans (transposeAll_changes _ _)
  · exact without_changes s id

theorem untransposed_changes (s : RuleStore) : Changes p s s.untransposed := by
  have hoff : Changes p s { s with transposing := false } := .single (.aside rfl rfl rfl rfl rfl id)
  exact hoff.trans (withdraw_changes _ _ fun _ ↦ RuleIndex.trimmed_dropAll _ _)

theorem setTransposing_changes (s : RuleStore) (on : Bool) :
    Changes p s (s.setTransposing on) := by
  rcases s.setTransposing_cases on with heq | heq | heq
  · rw [heq]
  · rw [heq]
    have hon : Changes p s { s with transposing := true } := .single (.aside rfl rfl rfl rfl rfl id)
    exact hon.trans (transposeAll_changes _ _)
  · rw [heq]
    exact untransposed_changes s

theorem Changes.keeps (h : Changes p s s') (hs : s.Indexed) {motive : RuleStore → Prop}
    (step : ∀ s s', s.Indexed → motive s → Change p s s' → motive s') (hm : motive s) :
    motive s' := by
  suffices s'.Indexed ∧ motive s' from this.2
  induction h with
  | refl => exact ⟨hs, hm⟩
  | tail _ hchange ih => exact ⟨ih.1.change hchange, step _ _ ih.1 ih.2 hchange⟩

theorem ReachableBy.of_changes (h : s.ReachableBy p) {motive : RuleStore → Prop}
    (empty : ∀ transposing, motive (.empty transposing))
    (step : ∀ s s', s.Indexed → motive s → Change p s s' → motive s') : motive s := by
  induction h with
  | empty transposing => exact empty transposing
  | add hs hp hadd ih =>
    exact (add_changes hs.reachable.coherent hp hadd).keeps hs.reachable.indexed step ih
  | remove hs hremove ih => exact (remove_changes hremove).keeps hs.reachable.indexed step ih
  | setTransposing on hs ih =>
    exact (setTransposing_changes _ on).keeps hs.reachable.indexed step ih

theorem forall_insert {P : Rule → Prop} (h : ∀ x ∈ s.rules, P x) {r : Rule} {origin : Origin}
    (hr : P (r.stored s.nextId origin)) : ∀ x ∈ (s.insert r origin).rules, P x := by
  intro x hx
  rw [rules_insert] at hx
  rcases List.mem_append.mp hx with hx | hx
  · exact h x hx
  · rw [List.mem_singleton.mp hx]
    exact hr

/-- What every rule has that comes in, and keeps under another automatic name, every stored rule
has. -/
theorem ReachableBy.forall_rules (h : s.ReachableBy p) {P : Rule → Prop}
    (user : ∀ {given r : Rule} (id : RuleId), p given →
      (r = given ∨ given.isFact = false ∧ ∃ n, r = given.withAutoName (autoName n given)) →
      (∀ name, r.name = some name → name.isLiteral = true) → P (r.stored id .user))
    (hook : ∀ {r : Rule} {name : Term} (id : RuleId), P r → r.name = some name →
      P ((Rule.plain name [] r.degree).stored id (.hook r.id)))
    (transposition : ∀ {source c : Rule} (n : ℕ) (id : RuleId), c ∈ source.contrapositives →
      P ((c.withAutoName (autoName n c)).stored id (.transposition source.id)))
    (retitle : ∀ {r : Rule} (n : ℕ), P r → r.autoNamed = true →
      P (r.withAutoName (autoName n r))) :
    ∀ x ∈ s.rules, P x := by
  refine h.of_changes (motive := fun s ↦ ∀ x ∈ s.rules, P x) (fun _ _ hx ↦ by cases hx)
    fun s s' _ hs hchange ↦ ?_
  cases hchange with
  | aside hrules =>
    rw [hrules]
    exact hs
  | user hp hsettled hliteral _ => exact forall_insert hs (user _ hp hsettled hliteral)
  | hook hr hname => exact forall_insert hs (hook _ (hs _ hr) hname)
  | @transposition source c hc _ =>
    exact forall_insert (s := (s.takeName c).2) hs (transposition _ _ hc)
  | detach id =>
    rw [rules_detach]
    exact fun x hx ↦ hs x (List.mem_filter.mp hx).1
  | retitle hr hauto =>
    intro x hx
    rcases mem_retitle hx with ⟨hx, -⟩ | rfl
    · exact hs x hx
    · exact retitle _ (hs _ hr) hauto

end RuleStore

theorem Engine.addAll_reachableBy {e : Engine} {p : Rule → Prop} (h : e.store.ReachableBy p)
    {rules : List Rule} (hp : ∀ r ∈ rules, p r) : (e.addAll rules).2.store.ReachableBy p := by
  induction rules generalizing e with
  | nil => exact h
  | cons r rules ih =>
    obtain ⟨hr, hrules⟩ := List.forall_mem_cons.mp hp
    rw [Engine.addAll]
    cases hadd : e.add r with
    | error err => exact h
    | ok added =>
      refine ih ?_ hrules
      rw [Engine.add] at hadd
      split at hadd
      · cases hadd
        exact h.add hr ‹_›
      · cases hadd

end Argumentation
