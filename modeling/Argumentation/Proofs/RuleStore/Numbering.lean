import Argumentation.Proofs.RuleStore.Lookups
import Argumentation.Proofs.RuleStore.NameSearch

namespace Argumentation

/-- An automatic name has a number and the rule's variables. Only a store marks a name as automatic,
when it gives the rule one. -/
def Rule.Genuine (r : Rule) : Prop :=
  r.autoNamed = true → ∃ k, r.name = some (RuleStore.autoName k r)

namespace RuleStore

variable {s s' : RuleStore} {log : List NameSearch}

theorem ReachableBy.genuine (h : s.ReachableBy Rule.Genuine) : ∀ x ∈ s.rules, x.Genuine := by
  refine h.forall_rules ?_ ?_ ?_ ?_
  · intro given r id hp hsettled _
    rcases hsettled with rfl | ⟨-, n, rfl⟩
    · exact hp
    · exact fun _ ↦ ⟨n, rfl⟩
  · intro r name id _ _ hauto
    cases hauto
  · exact fun n id _ _ ↦ ⟨n, rfl⟩
  · exact fun n _ _ _ ↦ ⟨n, rfl⟩

section

variable {α : Type} (step : RuleStore → α → RuleStore) (searches : RuleStore → α → List NameSearch)

def searchesAlong (s : RuleStore) : List α → List NameSearch
  | [] => []
  | a :: as => searches s a ++ searchesAlong (step s a) as

variable {step searches}

theorem forall_searchesAlong {motive : RuleStore → Prop} {p : NameSearch → Prop} (hs : motive s)
    (keep : ∀ s a, motive s → motive (step s a))
    (single : ∀ s a, motive s → ∀ c ∈ searches s a, p c) (as : List α) :
    ∀ c ∈ searchesAlong step searches s as, p c := by
  induction as generalizing s with
  | nil => simp [searchesAlong]
  | cons a as ih => exact List.forall_mem_append.mpr ⟨single s a hs, ih (keep s a hs)⟩

end

def adopt (source : Rule) (s : RuleStore) (c : Rule) : RuleStore :=
  if s.contains c then s
  else (s.takeName c).2.insert (c.withAutoName (s.takeName c).1) (.transposition source.id)

def adoptSearches (s : RuleStore) (c : Rule) : List NameSearch :=
  if s.contains c then [] else [⟨s, c⟩]

def transposeSearches (s : RuleStore) (source : Rule) : List NameSearch :=
  searchesAlong (adopt source) adoptSearches s source.contrapositives

def transposeAllSearches (s : RuleStore) (sources : List Rule) : List NameSearch :=
  searchesAlong transpose transposeSearches s sources

def renameSearches (s : RuleStore) (id : RuleId) : List NameSearch :=
  (s.rule? id).toList.map fun r ↦ ⟨s.unindexName r, r⟩

def settleSearches (s : RuleStore) (r : Rule) : List NameSearch :=
  if r.name.isNone && !r.isFact then [⟨s, r⟩] else []

def installSearches (s : RuleStore) (named : Rule) (ids : List RuleId) : List NameSearch :=
  let enlarged := s.enlarge named ids
  searchesAlong rename renameSearches (s.insert named .user) ids ++
    if enlarged.transposing then enlarged.transposeAllSearches (enlarged.rule? s.nextId).toList
    else []

def addSearches (s : RuleStore) (r : Rule) : List NameSearch :=
  match s.settleName r with
  | .ok (named, ids, settled) =>
    s.settleSearches r ++ (settled.makeRoom named).installSearches named ids
  | .error _ => []

def removeSearches (s : RuleStore) (id : RuleId) : List NameSearch :=
  let rest := s.without id
  if rest.transposing then rest.transposeAllSearches rest.strictUserRules else []

def switchSearches (s : RuleStore) (on : Bool) : List NameSearch :=
  if on && !s.transposing then transposeAllSearches { s with transposing := true } s.strictUserRules
  else []

/-- A store with the searches for a name that were made over its life, in their order. -/
inductive History : RuleStore → List NameSearch → Prop
  | empty (transposing : Bool) : History (.empty transposing) []
  | add {s s' : RuleStore} {log : List NameSearch} {r : Rule} {id : RuleId} : History s log →
      r.Genuine → s.add r = .ok (id, s') → History s' (log ++ s.addSearches r)
  | remove {s s' : RuleStore} {log : List NameSearch} {r : Rule} {id : RuleId} : History s log →
      s.remove id = .ok (r, s') → History s' (log ++ s.removeSearches id)
  | setTransposing {s : RuleStore} {log : List NameSearch} (on : Bool) : History s log →
      History (s.setTransposing on) (log ++ s.switchSearches on)

theorem History.reachableBy (h : s.History log) : s.ReachableBy Rule.Genuine := by
  induction h with
  | empty transposing => exact .empty transposing
  | add _ hr hadd ih => exact ih.add hr hadd
  | remove _ hremove ih => exact ih.remove hremove
  | setTransposing on _ ih => exact ih.setTransposing on

theorem ReachableBy.exists_history (h : s.ReachableBy Rule.Genuine) : ∃ log, s.History log := by
  induction h with
  | empty transposing => exact ⟨_, .empty transposing⟩
  | add _ hr hadd ih =>
    obtain ⟨log, hlog⟩ := ih
    exact ⟨_, hlog.add hr hadd⟩
  | remove _ hremove ih =>
    obtain ⟨log, hlog⟩ := ih
    exact ⟨_, hlog.remove hremove⟩
  | setTransposing on _ ih =>
    obtain ⟨log, hlog⟩ := ih
    exact ⟨_, hlog.setTransposing on⟩

theorem nextName_insert (s : RuleStore) (r : Rule) (origin : Origin) :
    (s.insert r origin).nextName = s.nextName := by
  obtain ⟨names, hnames⟩ := s.indexName_eq { r with id := s.nextId, origin }
  rw [insert, hnames]

theorem nextName_detach (s : RuleStore) (id : RuleId) : (s.detach id).nextName = s.nextName := by
  obtain ⟨_, _, _, _, hdetach⟩ := s.detach_eq id
  rw [hdetach]

theorem nextName_foldl_detach (s : RuleStore) (ids : List RuleId) :
    (ids.foldl detach s).nextName = s.nextName := by
  obtain ⟨_, _, _, _, hrest⟩ := s.foldl_detach_eq ids
  rw [hrest]

theorem nextName_unhook (s : RuleStore) (id : RuleId) : (s.unhook id).nextName = s.nextName :=
  nextName_foldl_detach s _

theorem nextName_addHook (s : RuleStore) (id : RuleId) : (s.addHook id).nextName = s.nextName := by
  rw [addHook]
  split
  · split
    · exact s.nextName_insert _ _
    · rfl
  · rfl

theorem nextName_makeRoom (s : RuleStore) (r : Rule) : (s.makeRoom r).nextName = s.nextName := by
  rw [makeRoom]
  split
  · rename_i T _
    rw [dropGenerated]
    split
    · exact s.nextName_detach T.id
    · exact s.nextName_detach T.id
  · rfl

theorem nextName_unindexName (s : RuleStore) (r : Rule) :
    (s.unindexName r).nextName = s.nextName := by
  obtain ⟨names, hnames⟩ := s.unindexName_eq r
  rw [hnames]

theorem nextName_retitle (s : RuleStore) (r : Rule) : (s.retitle r).nextName =
    s.nextName + ((s.unindexName r).skippedNames r + 1) := by
  obtain ⟨names, hnames⟩ := ((s.unindexName r).takeName r).2.indexName_eq
    (r.withAutoName (s.newName r))
  rw [retitle, hnames]
  show (s.unindexName r).nextName + (s.unindexName r).skippedNames r + 1 = _
  rw [nextName_unindexName, Nat.add_assoc]

def used (log : List NameSearch) : List ℕ :=
  log.flatMap NameSearch.numbers

def Spends (s : RuleStore) (log : List NameSearch) (s' : RuleStore) : Prop :=
  ∃ k, s'.nextName = s.nextName + k ∧ used log = List.range' s.nextName k

theorem Spends.nothing (h : s'.nextName = s.nextName) : s.Spends [] s' :=
  ⟨0, h, rfl⟩

theorem Spends.trans {s'' : RuleStore} {log' : List NameSearch} (h : s.Spends log s')
    (h' : s'.Spends log' s'') : s.Spends (log ++ log') s'' := by
  obtain ⟨k, hnext, hused⟩ := h
  obtain ⟨k', hnext', hused'⟩ := h'
  refine ⟨k + k', by rw [hnext', hnext, Nat.add_assoc], ?_⟩
  rw [used, List.flatMap_append, ← used, ← used, hused, hused', hnext, List.range'_append_1]

theorem Spends.congr {s'' : RuleStore} (h : s.Spends log s')
    (hnext : s''.nextName = s'.nextName) : s.Spends log s'' := by
  rw [← List.append_nil log]
  exact h.trans (.nothing hnext)

theorem Spends.search {c : NameSearch} (hstart : c.store.nextName = s.nextName)
    (hnext : s'.nextName = s.nextName + (c.store.skippedNames c.rule + 1)) : s.Spends [c] s' := by
  refine ⟨_, hnext, ?_⟩
  rw [used, List.flatMap_cons, List.flatMap_nil, List.append_nil, NameSearch.numbers, hstart]

theorem Spends.along {α : Type} {step : RuleStore → α → RuleStore}
    {searches : RuleStore → α → List NameSearch}
    (h : ∀ (s : RuleStore) (a : α), s.Spends (searches s a) (step s a)) (s : RuleStore)
    (as : List α) : s.Spends (searchesAlong step searches s as) (as.foldl step s) := by
  induction as generalizing s with
  | nil => exact .nothing rfl
  | cons a as ih => exact (h s a).trans (ih (step s a))

theorem takeName_spends (s : RuleStore) (r : Rule) : s.Spends [⟨s, r⟩] (s.takeName r).2 :=
  .search rfl rfl

theorem adopt_spends (source : Rule) (s : RuleStore) (c : Rule) :
    s.Spends (s.adoptSearches c) (adopt source s c) := by
  rw [adoptSearches, adopt]
  split
  · exact .nothing rfl
  · exact (s.takeName_spends c).congr (nextName_insert _ _ _)

theorem transpose_spends (s : RuleStore) (source : Rule) :
    s.Spends (s.transposeSearches source) (s.transpose source) :=
  .along (adopt_spends source) s _

theorem transposeAll_spends (s : RuleStore) (sources : List Rule) :
    s.Spends (s.transposeAllSearches sources) (s.transposeAll sources) :=
  .along transpose_spends s sources

theorem rename_spends (s : RuleStore) (id : RuleId) :
    s.Spends (s.renameSearches id) (s.rename id) := by
  rw [renameSearches]
  cases hr : s.rule? id with
  | none =>
    rw [rename, hr]
    exact .nothing rfl
  | some r =>
    have hretitled : s.Spends [⟨s.unindexName r, r⟩] (s.retitle r) :=
      .search (s.nextName_unindexName r) (s.nextName_retitle r)
    rw [rename_of_some hr]
    split
    · exact hretitled.congr ((nextName_addHook _ id).trans (nextName_unhook _ id))
    · exact hretitled

theorem install_spends (s : RuleStore) (named : Rule) (ids : List RuleId) :
    s.Spends (s.installSearches named ids) (s.install named ids) := by
  have hinserted : s.Spends [] (s.insert named .user) := .nothing (s.nextName_insert named .user)
  have hrenamed := hinserted.trans (.along rename_spends (s.insert named .user) ids)
  have henlarged : s.Spends (searchesAlong rename renameSearches (s.insert named .user) ids)
      (s.enlarge named ids) := by
    refine hrenamed.congr ?_
    rw [enlarge]
    split
    · rfl
    · exact nextName_addHook _ _
  rw [installSearches, install]
  split
  · exact henlarged.trans (transposeAll_spends _ _)
  · exact henlarged.trans (.nothing rfl)

theorem settleName_spends {r named : Rule} {ids : List RuleId}
    (h : s.settleName r = .ok (named, ids, s')) : s.Spends (s.settleSearches r) s' := by
  rw [settleSearches]
  rcases settleName_spec h with ⟨name, hname, -, -, -, -, rfl⟩ |
    ⟨hname, -, ⟨hfact, -, rfl⟩ | ⟨hfact, -, rfl⟩⟩
  · rw [hname]
    exact .nothing rfl
  · rw [hname, hfact]
    exact .nothing rfl
  · rw [hname, hfact]
    exact s.takeName_spends r

theorem addSearches_of_ok {r named : Rule} {ids : List RuleId}
    (h : s.settleName r = .ok (named, ids, s')) : s.addSearches r =
      s.settleSearches r ++ (s'.makeRoom named).installSearches named ids := by
  rw [addSearches, h]

theorem add_spends {r : Rule} {id : RuleId} (h : s.add r = .ok (id, s')) :
    s.Spends (s.addSearches r) s' := by
  obtain ⟨-, named, ids, nextName, hsettle, rfl⟩ := add_spec h
  rw [addSearches_of_ok hsettle]
  exact ((settleName_spends hsettle).congr (nextName_makeRoom _ named)).trans
    (install_spends _ named ids)

theorem remove_spends {r : Rule} {id : RuleId} (h : s.remove id = .ok (r, s')) :
    s.Spends (s.removeSearches id) s' := by
  obtain ⟨-, -, rfl⟩ := remove_spec h
  have hrest : s.Spends [] (s.without id) := .nothing (nextName_foldl_detach s _)
  rw [removeSearches]
  split
  · exact hrest.trans (transposeAll_spends _ _)
  · exact hrest

theorem setTransposing_spends (s : RuleStore) (on : Bool) :
    s.Spends (s.switchSearches on) (s.setTransposing on) := by
  rw [switchSearches]
  by_cases hsame : s.transposing = on
  · rw [setTransposing, if_pos hsame, hsame, Bool.and_not_self]
    exact .nothing rfl
  · cases on with
    | true =>
      have hoff : s.transposing = false := Bool.eq_false_of_not_eq_true hsame
      rw [setTransposing_on hoff, hoff]
      exact transposeAll_spends { s with transposing := true } _
    | false =>
      rw [setTransposing_off (Bool.eq_true_of_not_eq_false hsame)]
      exact .nothing (nextName_foldl_detach { s with transposing := false } _)

/-- The searches over the life of a store spend all numbers from the first one on. -/
theorem History.spends (h : s.History log) : ∃ transposing,
    (RuleStore.empty transposing).Spends log s := by
  induction h with
  | empty transposing => exact ⟨transposing, .nothing rfl⟩
  | add _ _ hadd ih =>
    obtain ⟨transposing, hlog⟩ := ih
    exact ⟨transposing, hlog.trans (add_spends hadd)⟩
  | remove _ hremove ih =>
    obtain ⟨transposing, hlog⟩ := ih
    exact ⟨transposing, hlog.trans (remove_spends hremove)⟩
  | setTransposing on _ ih =>
    obtain ⟨transposing, hlog⟩ := ih
    exact ⟨transposing, hlog.trans (setTransposing_spends _ on)⟩

theorem History.used_eq (h : s.History log) : used log = List.range' 1 (s.nextName - 1) := by
  obtain ⟨transposing, k, hnext, hused⟩ := h.spends
  have hfirst : (RuleStore.empty transposing).nextName = 1 := rfl
  rw [hused, hnext, hfirst, Nat.add_sub_cancel_left]

theorem Listed.adopt (h : s.Listed) (source c : Rule) : (adopt source s c).Listed := by
  rw [RuleStore.adopt]
  split
  · exact h
  · refine (h.takeName c).insert _ fun name hname ↦ ?_
    cases hname
    rfl

theorem Listed.transpose_succeeds (h : s.Listed) (source : Rule) :
    ∀ c ∈ s.transposeSearches source, c.Succeeds := by
  refine forall_searchesAlong (motive := Listed) h (fun s c hs ↦ hs.adopt source c)
    (fun s c hs ↦ ?_) _
  rw [adoptSearches]
  split
  · simp
  · exact List.forall_mem_singleton.mpr (hs.search_succeeds c)

theorem Listed.transposeAll_succeeds (h : s.Listed) (sources : List Rule) :
    ∀ c ∈ s.transposeAllSearches sources, c.Succeeds := by
  refine forall_searchesAlong (motive := Listed) h (fun s source hs ↦ ?_)
    (fun s source hs ↦ hs.transpose_succeeds source) sources
  exact hs.changes (p := fun _ ↦ False) (transposeAll_changes s [source])

/-- Rules that are still to give their automatic names away to another rule, for its own name. -/
structure Displaces (s : RuleStore) (x : Rule) (m : Term) (ids : List RuleId) : Prop where
  mem : x ∈ s.rules
  origin : x.origin = .user
  name : x.name = some m
  not_mem : x.id ∉ ids
  nodup : ids.Nodup
  yields : s.Yields ids
  automatic : ∀ id ∈ ids, ∀ y ∈ s.rules, y.id = id →
    ∃ k, y.name = some (autoName k y) ∧ (autoName k y).unifies m = true

variable {x : Rule} {m : Term} {id : RuleId} {ids : List RuleId}

theorem Displaces.rename (h : s.Displaces x m (id :: ids)) (hc : s.Coherent) :
    (s.rename id).Displaces x m ids where
  mem := hc.mem_rename h.mem (by rw [h.origin]; rfl) (List.ne_of_not_mem_cons h.not_mem)
  origin := h.origin
  name := h.name
  not_mem hmem := h.not_mem (.tail _ hmem)
  nodup := (List.nodup_cons.mp h.nodup).2
  yields := by
    have hrest : s.Yields ids := fun id' hid' ↦ h.yields id' (.tail _ hid')
    exact hrest.mono (s.nextId_le_rename id) fun _ ↦ mem_rename
  automatic := by
    rintro id' hid' y hy rfl
    rcases mem_rename_cases hy with hy | hnew | ⟨hsame, -⟩
    · exact h.automatic y.id (.tail _ hid') y hy rfl
    · exact absurd hnew (Nat.ne_of_lt (h.yields y.id (.tail _ hid')).1)
    · exact absurd (hsame ▸ hid') (List.nodup_cons.mp h.nodup).1

theorem Displaces.rename_succeeds (h : s.Displaces x m (id :: ids)) (hl : s.Listed) :
    ∀ c ∈ s.renameSearches id, c.Succeeds := by
  rw [renameSearches]
  cases hr : s.rule? id with
  | none => simp
  | some r =>
    obtain ⟨hmem, rfl⟩ := of_rule? hr
    obtain ⟨k, hname, hunifies⟩ := h.automatic r.id (.head _) r hmem rfl
    have hne : x.id ≠ r.id := List.ne_of_not_mem_cons h.not_mem
    exact List.forall_mem_singleton.mpr
      (hl.renaming_succeeds hmem h.mem hne hname h.name hunifies)

theorem Displaces.foldl_rename_succeeds (h : s.Displaces x m ids) (hl : s.Listed)
    (hc : s.Coherent) : ∀ c ∈ searchesAlong RuleStore.rename renameSearches s ids, c.Succeeds := by
  induction ids generalizing s with
  | nil => simp [searchesAlong]
  | cons id ids ih =>
    have hrenamed : (s.rename id).Listed :=
      hl.changes (p := fun _ ↦ False) (rename_changes (h.yields id (.head _)).2)
    exact List.forall_mem_append.mpr
      ⟨h.rename_succeeds hl, ih (h.rename hc) hrenamed (hc.rename id)⟩

/-- The rules that a given name unifies with have automatic names, and give them away once each. -/
theorem ReachableBy.displaces_insert (hs : s.ReachableBy Rule.Genuine) {r : Rule} {name : Term}
    (hname : r.name = some name) (hids : s.displaced name = .ok ids) :
    ((s.makeRoom r).insert r .user).Displaces (r.stored (s.makeRoom r).nextId .user) name ids where
  mem := by
    rw [rules_insert]
    exact List.mem_append_right _ (.head _)
  origin := rfl
  name := hname
  not_mem hmem := by
    have hlt := (hs.listed.yields_of_displaced hids _ hmem).1
    rw [Rule.stored, (s.makeRoom_frame r).1] at hlt
    exact Nat.lt_irrefl _ hlt
  nodup := by
    rw [(displaced_ok hids).1]
    exact hs.listed.nodup_named name
  yields := ((hs.listed.yields_of_displaced hids).makeRoom r).insert r .user
  automatic := by
    rintro id hid y hy rfl
    obtain ⟨hlt, hauto⟩ := hs.listed.yields_of_displaced hids y.id hid
    rw [rules_insert] at hy
    rcases List.mem_append.mp hy with hy | hy
    · have hy : y ∈ s.rules := (s.makeRoom_frame r).2 y hy
      obtain ⟨k, hk⟩ := hs.genuine y hy (hauto y hy rfl)
      rw [(displaced_ok hids).1] at hid
      obtain ⟨z, hz, hzid, n, hn, hunifies⟩ := exists_of_mem_named hid
      rw [hs.listed.eq_of_id hz hy hzid, hk] at hn
      cases hn
      exact ⟨k, hk, hunifies⟩
    · rw [List.mem_singleton.mp hy, (s.makeRoom_frame r).1] at hlt
      exact absurd hlt (Nat.lt_irrefl _)

theorem Listed.settle_succeeds (h : s.Listed) (r : Rule) :
    ∀ c ∈ s.settleSearches r, c.Succeeds := by
  rw [settleSearches]
  split
  · exact List.forall_mem_singleton.mpr (h.search_succeeds r)
  · simp

theorem Listed.install_succeeds (h : s.Listed) {named : Rule}
    (hliteral : ∀ name, named.name = some name → name.isLiteral = true) (hids : s.Yields ids)
    (hrename : ∀ c ∈ searchesAlong RuleStore.rename renameSearches (s.insert named .user) ids,
      c.Succeeds) : ∀ c ∈ s.installSearches named ids, c.Succeeds := by
  have hrenamed : (ids.foldl RuleStore.rename (s.insert named .user)).Listed :=
    (h.insert .user hliteral).changes (p := fun _ ↦ False)
      (foldl_rename_changes (hids.insert named .user))
  have henlarged : (s.enlarge named ids).Listed := by
    rw [enlarge]
    split
    · exact hrenamed
    · exact hrenamed.changes (p := fun _ ↦ False) (addHook_changes _ _)
  refine List.forall_mem_append.mpr ⟨hrename, ?_⟩
  split
  · exact henlarged.transposeAll_succeeds _
  · simp

theorem ReachableBy.add_succeeds (hs : s.ReachableBy Rule.Genuine) {r : Rule}
    (hadd : s.add r = .ok (id, s')) : ∀ c ∈ s.addSearches r, c.Succeeds := by
  obtain ⟨-, named, ids, nextName, hsettle, -⟩ := add_spec hadd
  have hids : RuleStore.Yields { s with nextName } ids := hs.listed.yields_of_settleName hsettle
  have hstart : Changes (fun _ ↦ False) s { s with nextName } :=
    .single (.aside rfl rfl rfl rfl rfl fun h ↦ h)
  have hroom : (makeRoom { s with nextName } named).Listed :=
    hs.listed.changes (hstart.trans (makeRoom_changes _ named))
  rw [addSearches_of_ok hsettle]
  refine List.forall_mem_append.mpr ⟨hs.listed.settle_succeeds r,
    hroom.install_succeeds (settleName_user hsettle).2 (hids.makeRoom named) ?_⟩
  rcases settleName_spec hsettle with ⟨name, hname, -, -, hdisplaced, rfl, heq⟩ | ⟨-, rfl, -⟩
  · have hcoherent : ((s.makeRoom named).insert named .user).Coherent :=
      (hs.reachable.coherent.makeRoom named).insert fun hhook ↦ by cases hhook
    rw [heq] at hroom ⊢
    exact (hs.displaces_insert hname hdisplaced).foldl_rename_succeeds
      (hroom.insert .user (settleName_user hsettle).2) hcoherent
  · simp [searchesAlong]

theorem Listed.remove_succeeds (h : s.Listed) (id : RuleId) :
    ∀ c ∈ s.removeSearches id, c.Succeeds := by
  rw [removeSearches]
  split
  · exact (h.changes (p := fun _ ↦ False) (without_changes s id)).transposeAll_succeeds _
  · simp

theorem Listed.switch_succeeds (h : s.Listed) (on : Bool) :
    ∀ c ∈ s.switchSearches on, c.Succeeds := by
  have hon : Changes (fun _ ↦ False) s { s with transposing := true } :=
    .single (.aside rfl rfl rfl rfl rfl fun h ↦ h)
  rw [switchSearches]
  split
  · exact (h.changes hon).transposeAll_succeeds _
  · simp

theorem History.succeeds (h : s.History log) : ∀ c ∈ log, c.Succeeds := by
  induction h with
  | empty transposing => simp
  | add hs _ hadd ih => exact List.forall_mem_append.mpr ⟨ih, hs.reachableBy.add_succeeds hadd⟩
  | remove hs _ ih =>
    exact List.forall_mem_append.mpr ⟨ih, hs.reachableBy.listed.remove_succeeds _⟩
  | setTransposing on hs ih =>
    exact List.forall_mem_append.mpr ⟨ih, hs.reachableBy.listed.switch_succeeds on⟩

/-- No number is used twice, and the next search does not use one of them again. -/
theorem History.nodup_used (h : s.History log) (r : Rule) : (used (log ++ [⟨s, r⟩])).Nodup := by
  obtain ⟨transposing, hlog⟩ := h.spends
  obtain ⟨k, -, hused⟩ := hlog.trans (s.takeName_spends r)
  rw [hused]
  exact List.nodup_range'

/-- Automatic naming never fails. In every store the search for a name succeeds for whatever rule:
it tries at most one name more than there are named rules, and it gets one over the rule's variables
that unifies with no rule's name. So did each search over the life of the store, those for rules
that gave way to a given name included, and no two of them ever tried one number, whether they used
it or passed it over. -/
theorem Reachable.autoNames_found (h : s.Reachable) :
    (∀ r, (NameSearch.mk s r).Succeeds) ∧
    (s.ReachableBy Rule.Genuine → ∃ log, s.History log) ∧
    ∀ log, s.History log → (∀ c ∈ log, c.Succeeds) ∧
      used log = List.range' 1 (s.nextName - 1) ∧ ∀ r, (used (log ++ [⟨s, r⟩])).Nodup :=
  ⟨h.reachableBy.listed.search_succeeds, ReachableBy.exists_history, fun _ hlog ↦
    ⟨hlog.succeeds, hlog.used_eq, hlog.nodup_used⟩⟩

def crowded : RuleStore :=
  (Engine.addAll ⟨.default, .empty true⟩ [.plain (.const "p") [.const "q"] .one,
    (Rule.plain (.const "a") [.const "b"] .one).withName (.const "r1"),
    (Rule.plain (.const "c") [] .one).withName (.const "r5"),
    .plain (.const "d") [.const "e"] .one]).2.store

theorem crowded_named :
    crowded.rules.filterMap (·.name.map Term.text) = ["r3", "r2", "r1", "r4", "r5", "r6", "r7"] ∧
    (∀ r, (NameSearch.mk crowded r).Succeeds) ∧
    ∃ log, crowded.History log ∧ (∀ c ∈ log, c.Succeeds) ∧ used log = [1, 2, 3, 4, 5, 6, 7] ∧
      ∀ r, (used (log ++ [⟨crowded, r⟩])).Nodup := by
  have hgenuine : crowded.ReachableBy Rule.Genuine :=
    Engine.addAll_reachableBy (.empty true) (by simp [Rule.Genuine, Rule.plain, Rule.withName])
  obtain ⟨hnext, hhistory, hlife⟩ := hgenuine.reachable.autoNames_found
  obtain ⟨log, hlog⟩ := hhistory hgenuine
  obtain ⟨hsucceeds, hused, hnodup⟩ := hlife log hlog
  have hcounter : crowded.nextName = 8 := by decide +kernel
  rw [hcounter] at hused
  exact ⟨by decide +kernel, hnext, log, hlog, hsucceeds, hused, hnodup⟩

end RuleStore

end Argumentation
