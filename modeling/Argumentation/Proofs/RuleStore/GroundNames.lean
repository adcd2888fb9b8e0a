import Argumentation.Proofs.RuleStore.FreshNames
import Argumentation.Proofs.Substitution.Matching

namespace Argumentation

namespace RuleStore

variable {s s' u : RuleStore} {p : Rule → Prop}

def Scoped (rules : List Rule) : Prop :=
  ∀ x ∈ rules, ∀ y ∈ rules, x.origin = .user → y.origin = .user → x.id ≠ y.id →
    ∀ v ∈ x.allVars, v ∉ y.allVars

def Narrows (s s' : RuleStore) : Prop :=
  ∀ y ∈ s'.rules, y.origin = .user →
    ∃ x ∈ s.rules, x.origin = .user ∧ x.id = y.id ∧ ∀ v ∈ y.allVars, v ∈ x.allVars

theorem narrows_of_subset (h : ∀ x ∈ s'.rules, x.origin = .user → x ∈ s.rules) : s.Narrows s' :=
  fun y hy huser ↦ ⟨y, h y hy huser, huser, rfl, fun _ hv ↦ hv⟩

theorem Narrows.trans (h : s.Narrows u) (h' : u.Narrows s') : s.Narrows s' := by
  intro z hz hzuser
  obtain ⟨y, hy, hyuser, hid, hvars⟩ := h' z hz hzuser
  obtain ⟨x, hx, hxuser, hid', hvars'⟩ := h y hy hyuser
  exact ⟨x, hx, hxuser, hid'.trans hid, fun v hv ↦ hvars' v (hvars v hv)⟩

theorem Scoped.narrows (h : Scoped s.rules) (hnarrows : s.Narrows s') : Scoped s'.rules := by
  intro x hx y hy hxuser hyuser hne v hvx hvy
  obtain ⟨x', hx', hxuser', hxid, hxvars⟩ := hnarrows x hx hxuser
  obtain ⟨y', hy', hyuser', hyid, hyvars⟩ := hnarrows y hy hyuser
  rw [← hxid, ← hyid] at hne
  exact h x' hx' y' hy' hxuser' hyuser' hne v (hxvars v hvx) (hyvars v hvy)

theorem mem_allVars_withAutoName {n : ℕ} {r : Rule} {v : Variable}
    (hv : v ∈ (r.withAutoName (autoName n r)).allVars) : v ∈ r.vars := by
  rcases Rule.mem_allVars.mp hv with hv | hv | ⟨e, he, hv⟩
  · exact Rule.mem_vars.mpr (.inl hv)
  · exact Rule.mem_vars.mpr (.inr hv)
  · cases he
    exact mem_occurrences_autoName.mp hv

theorem narrows_insert (s : RuleStore) (r : Rule) {origin : Origin} (horigin : origin ≠ .user) :
    s.Narrows (s.insert r origin) := by
  refine narrows_of_subset fun x hx huser ↦ ?_
  rw [rules_insert] at hx
  rcases List.mem_append.mp hx with hx | hx
  · exact hx
  · rw [List.mem_singleton.mp hx] at huser
    exact absurd huser horigin

theorem Change.narrows (h : Change (fun _ ↦ False) s s') : s.Narrows s' := by
  cases h with
  | aside hrules => exact narrows_of_subset fun x hx _ ↦ hrules ▸ hx
  | user hp => exact hp.elim
  | hook => exact narrows_insert s _ (by simp)
  | @transposition source c _ _ => exact narrows_insert (s.takeName c).2 _ (by simp)
  | detach id =>
    refine narrows_of_subset fun x hx _ ↦ ?_
    rw [rules_detach] at hx
    exact (List.mem_filter.mp hx).1
  | @retitle r hr _ =>
    intro y hy huser
    rcases mem_retitle hy with ⟨hy, -⟩ | rfl
    · exact ⟨y, hy, huser, rfl, fun _ hv ↦ hv⟩
    · exact ⟨r, hr, huser, rfl, fun v hv ↦
        Rule.mem_allVars_of_mem_vars (mem_allVars_withAutoName hv)⟩

theorem Changes.narrows (h : Changes (fun _ ↦ False) s s') : s.Narrows s' := by
  induction h with
  | refl => exact narrows_of_subset fun _ hx _ ↦ hx
  | tail _ hchange ih => exact ih.trans hchange.narrows

def IsForeign (s : RuleStore) (r : Rule) : Prop :=
  ∀ x ∈ s.rules, ∀ v ∈ r.allVars, v ∉ x.allVars

theorem Scoped.insert (h : Scoped s.rules) {r named : Rule} (hforeign : s.IsForeign r)
    (hnamed : ∀ v ∈ named.allVars, v ∈ r.allVars) : Scoped (s.insert named .user).rules := by
  have hnew (x : Rule) (hx : x ∈ s.rules) (v : Variable) (hv : v ∈ named.allVars) :
      v ∉ x.allVars := hforeign x hx v (hnamed v hv)
  rw [rules_insert]
  intro x hx y hy hxuser hyuser hne v hvx hvy
  rcases List.mem_append.mp hx with hx | hx <;> rcases List.mem_append.mp hy with hy | hy
  · exact h x hx y hy hxuser hyuser hne v hvx hvy
  · rw [List.mem_singleton.mp hy] at hvy
    exact hnew x hx v hvy hvx
  · rw [List.mem_singleton.mp hx] at hvx
    exact hnew y hy v hvx hvy
  · rw [List.mem_singleton.mp hx, List.mem_singleton.mp hy] at hne
    exact hne rfl

theorem Scoped.add (hs : s.Indexed) (h : Scoped s.rules) {r : Rule} {id : RuleId}
    (hforeign : s.IsForeign r) (hadd : s.add r = .ok (id, s')) : Scoped s'.rules := by
  obtain ⟨named, u, hnamed, hrules, hchanges⟩ := hs.add_split hadd
  have hu : Scoped u.rules := h.narrows (narrows_of_subset fun x hx _ ↦ hrules x hx)
  refine (hu.insert (fun x hx ↦ hforeign x (hrules x hx)) fun v hv ↦ ?_).narrows hchanges.narrows
  rcases hnamed with rfl | ⟨n, rfl⟩
  · exact hv
  · exact Rule.mem_allVars_of_mem_vars (mem_allVars_withAutoName hv)

/-- The stores that come about by the operations on them, if each rule that is added has a scope of
its own. -/
inductive ReachableScoped : RuleStore → Prop
  | empty (transposing : Bool) : ReachableScoped (.empty transposing)
  | add {s s' : RuleStore} {r : Rule} {id : RuleId} : ReachableScoped s → s.IsForeign r →
      s.add r = .ok (id, s') → ReachableScoped s'
  | remove {s s' : RuleStore} {r : Rule} {id : RuleId} :
      ReachableScoped s → s.remove id = .ok (r, s') → ReachableScoped s'
  | setTransposing {s : RuleStore} (on : Bool) :
      ReachableScoped s → ReachableScoped (s.setTransposing on)

theorem ReachableScoped.reachable (h : s.ReachableScoped) : s.Reachable := by
  induction h with
  | empty transposing => exact .empty transposing
  | add _ _ hadd ih => exact ih.add hadd
  | remove _ hremove ih => exact ih.remove hremove
  | setTransposing on _ ih => exact ih.setTransposing on

theorem ReachableScoped.scoped (h : s.ReachableScoped) : Scoped s.rules := by
  induction h with
  | empty transposing =>
    intro x hx
    cases hx
  | add hs hforeign hadd ih => exact ih.add hs.reachable.indexed hforeign hadd
  | remove hs hremove ih => exact ih.narrows (remove_changes hremove).narrows
  | setTransposing on hs ih => exact ih.narrows (setTransposing_changes _ on).narrows

structure GeneratedName (r : Rule) : Prop where
  hook : r.origin.isHook = true → r.name = none ∧ r.autoNamed = false
  transposition : r.origin.isTransposition = true → ∃ k, r.name = some (autoName k r)

theorem Reachable.generatedName (h : s.Reachable) : ∀ r ∈ s.rules, GeneratedName r := by
  refine h.reachableBy.forall_rules ?_ ?_ ?_ ?_
  · intro given r id _ _ _
    refine ⟨fun hhook ↦ ?_, fun htransposition ↦ ?_⟩
    · cases hhook
    · cases htransposition
  · intro r name id _ _
    refine ⟨fun _ ↦ ⟨rfl, rfl⟩, fun htransposition ↦ ?_⟩
    cases htransposition
  · intro source c k id _
    refine ⟨fun hhook ↦ ?_, fun _ ↦ ⟨k, rfl⟩⟩
    cases hhook
  · intro r k hr hauto
    refine ⟨fun hhook ↦ ?_, fun _ ↦ ⟨k, rfl⟩⟩
    cases (hr.hook hhook).2.symm.trans hauto

/-- A named rule is a user's one or a contrapositive of one under an automatic name, and all
variables of its name are that rule's. -/
theorem Reachable.exists_namesake (h : s.Reachable) {x : Rule} (hx : x ∈ s.rules) {m : Term}
    (hm : x.name = some m) : ∃ S ∈ s.rules, S.origin = .user ∧
      (x = S ∨ x.origin = .transposition S.id ∧ ∃ k, m = autoName k x) ∧
      ∀ v ∈ m.occurrences, v ∈ S.allVars := by
  obtain ⟨hhook, htransposition⟩ := h.generatedName x hx
  cases horigin : x.origin with
  | user =>
    exact ⟨x, hx, horigin, .inl rfl, fun v hv ↦ Rule.mem_allVars.mpr (.inr (.inr ⟨m, hm, hv⟩))⟩
  | hook source =>
    cases hm.symm.trans (hhook (by rw [horigin]; rfl)).1
  | transposition source =>
    obtain ⟨k, hk⟩ := htransposition (by rw [horigin]; rfl)
    cases hm.symm.trans hk
    obtain ⟨S, hS, rfl, c, hc, hconsequent, hantecedent⟩ := h.transposed.exists_strict hx horigin
    obtain ⟨⟨hS, huser⟩, -⟩ := mem_strictUserRules.mp hS
    refine ⟨S, hS, huser, .inr ⟨rfl, k, rfl⟩, fun v hv ↦ ?_⟩
    have hvars : x.vars = c.vars := by rw [Rule.vars, Rule.vars, hconsequent, hantecedent]
    rw [mem_occurrences_autoName, hvars] at hv
    exact Rule.mem_allVars_of_mem_vars (Rule.mem_vars_of_contrapositive hc hv)

/-- Automatic names with one number over equally many variables only differ in these. -/
theorem overlaps_autoName {j k : ℕ} {x y : Rule} {g : Term} (hg : g.occurrences = [])
    (hx : (autoName j x).unifies g = true) (hy : (autoName k y).unifies g = true) :
    (autoName j x).Overlaps (autoName k y) := by
  have hpredicate {n : ℕ} {r : Rule} (hr : (autoName n r).unifies g = true) :
      g.predicate? = some ⟨"r" ++ toString n, r.vars.length⟩ := by
    rcases Term.predicate?_or_var_of_unifies (predicate?_autoName n r) hr with hp | ⟨v, rfl, -⟩
    · exact hp
    · cases hg
  have hsame := (hpredicate hx).symm.trans (hpredicate hy)
  rw [Option.some.injEq, Predicate.mk.injEq] at hsame
  have hturns (vs ws : List Variable) (hlength : vs.length = ws.length) :
      List.Forall₂ (Term.Turns fun _ _ ↦ True) (vs.map .var) (ws.map .var) := by
    refine List.forall₂_iff_get.mpr ⟨by simpa using hlength, fun i hi hi' ↦ ?_⟩
    simpa using Term.Turns.var trivial
  rw [autoName, autoName, hsame.1]
  have hresembles : Term.Resembles (.app (.name ("r" ++ toString k)) (x.vars.map .var))
      (.app (.name ("r" ++ toString k)) (y.vars.map .var)) := .app _ (hturns _ _ hsame.2)
  exact hresembles.overlaps

/-- If each rule is added with variables of its own, a ground term names at most one stored rule,
unless one of two is a contrapositive of the other one and that one's name is not an automatic name.
-/
theorem ReachableScoped.eq_of_ground_name (h : s.ReachableScoped) {g : Term}
    (hg : g.isGround = true) : ∀ x ∈ s.rules, ∀ y ∈ s.rules, ∀ m n, x.name = some m →
      y.name = some n → m.unifies g = true → n.unifies g = true → x = y ∨
      (x.origin = .transposition y.id ∧ ∀ k, n ≠ autoName k y) ∨
      (y.origin = .transposition x.id ∧ ∀ k, m ≠ autoName k x) := by
  intro x hx y hy m n hm hn hmg hng
  have hreachable := h.reachable
  have hground : g.occurrences = [] := List.isEmpty_iff.mp hg
  rw [or_iff_not_imp_left]
  intro hne
  have hapart : ¬m.Overlaps n := hreachable.apart x hx y hy
    (fun hid ↦ hne (hreachable.indexed.eq_of_id hx hy hid)) List.not_mem_nil List.not_mem_nil
    m n hm hn
  have hauto {j k : ℕ} (hj : m = autoName j x) (hk : n = autoName k y) : False := by
    subst hj hk
    exact hapart (overlaps_autoName hground hmg hng)
  obtain ⟨S, hS, hSuser, hxS, hmS⟩ := hreachable.exists_namesake hx hm
  obtain ⟨T, hT, hTuser, hyT, hnT⟩ := hreachable.exists_namesake hy hn
  -- Names over different variables need no renaming apart, so both stem from one rule of a user.
  have hid : S.id = T.id := by
    by_contra hid
    refine hapart (Term.overlaps_of_unifies_ground (fun v hv hv' ↦ ?_) hground hmg hng)
    exact h.scoped S hS T hT hSuser hTuser hid v (hmS v hv) (hnT v hv')
  obtain rfl := hreachable.indexed.eq_of_id hS hT hid
  -- They share its variables then; only automatic names are still told apart, by their numbers.
  rcases hxS with rfl | ⟨hxorigin, j, hj⟩ <;> rcases hyT with rfl | ⟨hyorigin, k, hk⟩
  · exact absurd rfl hne
  · exact .inr ⟨hyorigin, fun j hj ↦ hauto hj hk⟩
  · exact .inl ⟨hxorigin, fun k hk ↦ hauto hj hk⟩
  · exact (hauto hj hk).elim

end RuleStore

theorem Engine.addAll_reachableScoped {e : Engine} (h : e.store.ReachableScoped) {r : Rule}
    (hforeign : e.store.IsForeign r) : (e.addAll [r]).2.store.ReachableScoped := by
  rw [Engine.addAll]
  cases hadd : e.add r with
  | error err => exact h
  | ok added =>
    rw [Engine.add] at hadd
    split at hadd
    · cases hadd
      exact h.add hforeign ‹_›
    · cases hadd

namespace RuleStore

/-- A rule whose name looks like an automatic name but has more structure, with its contrapositive.
-/
def overnamed : RuleStore :=
  (Engine.addAll ⟨.default, .empty true⟩ [(Rule.plain (.app (.name "p") [.var ⟨"X", 1⟩])
    [.app (.name "q") [.var ⟨"X", 1⟩]] .one).withName
      (.app (.name "r1") [.app (.name "f") [.var ⟨"X", 1⟩]])]).2.store

theorem overnamed_reachable : overnamed.ReachableScoped :=
  Engine.addAll_reachableScoped (.empty true) fun x hx ↦ by cases hx

theorem overnamed_names :
    ∃ g : Term, g.isGround = true ∧ ∃ x ∈ overnamed.rules, ∃ y ∈ overnamed.rules, x.id < y.id ∧
      ∃ m n, x.name = some m ∧ y.name = some n ∧ m.unifies g = true ∧ n.unifies g = true ∧
      (x = y ∨ (x.origin = .transposition y.id ∧ ∀ k, n ≠ autoName k y) ∨
        (y.origin = .transposition x.id ∧ ∀ k, m ≠ autoName k x)) := by
  obtain ⟨x, hx, y, hy, hlt, hxname, hyname⟩ : ∃ x ∈ overnamed.rules, ∃ y ∈ overnamed.rules,
      x.id < y.id ∧
      x.name.any (·.unifies (.app (.name "r1") [.app (.name "f") [.const "a"]])) = true ∧
      y.name.any (·.unifies (.app (.name "r1") [.app (.name "f") [.const "a"]])) = true := by
    decide +kernel
  obtain ⟨m, hm, hmg⟩ := (Option.any_eq_true _ _).mp hxname
  obtain ⟨n, hn, hng⟩ := (Option.any_eq_true _ _).mp hyname
  exact ⟨_, rfl, x, hx, y, hy, hlt, m, n, hm, hn, hmg, hng,
    overnamed_reachable.eq_of_ground_name rfl x hx y hy m n hm hn hmg hng⟩

/-- The names do not unify, since they share a variable, and yet one term names both rules. -/
theorem overnamed_shares :
    overnamed.ReachableScoped ∧
    overnamed.rules.map Rule.text = ["p(X) <- q(X).", "r1(f(X)).", "~q(X) <- ~p(X)."] ∧
    ∃ g : Term, g.isGround = true ∧ ∃ x ∈ overnamed.rules, ∃ y ∈ overnamed.rules, x.id ≠ y.id ∧
      x.name.any (·.unifies g) = true ∧ y.name.any (·.unifies g) = true :=
  ⟨overnamed_reachable, by decide +kernel,
    .app (.name "r1") [.app (.name "f") [.const "a"]], rfl, by decide +kernel⟩

end RuleStore

end Argumentation
