import Argumentation.Proofs.RuleStore.FreshNames
import Argumentation.Proofs.RuleStore.Hooks

namespace Argumentation.RuleStore

variable {s s' : RuleStore} {p : Rule → Prop}

def Compared (s : RuleStore) : Prop :=
  ∀ x ∈ s.rules, ∀ y ∈ s.rules, x.id < y.id → y.origin = .user →
    x.origin.isTransposition = false → x.isVariant y = false

theorem Compared.insert (hs : s.Indexed) (h : s.Compared) {r : Rule} {origin : Origin}
    (hr : origin = .user → ∀ x ∈ s.rules, x.origin.isTransposition = false →
      x.isVariant r = false) : (s.insert r origin).Compared := by
  rw [Compared, rules_insert]
  intro x hx y hy hlt huser hnot
  rcases List.mem_append.mp hx with hx | hx <;> rcases List.mem_append.mp hy with hy | hy
  · exact h x hx y hy hlt huser hnot
  · rw [List.mem_singleton.mp hy] at huser ⊢
    exact hr huser x hx hnot
  · rw [List.mem_singleton.mp hx] at hlt
    exact absurd hlt (Nat.lt_asymm (hs.id_lt y hy))
  · rw [List.mem_singleton.mp hx, List.mem_singleton.mp hy] at hlt
    exact absurd hlt (Nat.lt_irrefl _)

theorem Compared.retitle (h : s.Compared) {r : Rule} (hr : r ∈ s.rules) :
    (s.retitle r).Compared := by
  have hold (x : Rule) (hx : x ∈ (s.retitle r).rules) :
      ∃ x₀ ∈ s.rules, x.id = x₀.id ∧ x.origin = x₀.origin ∧ x.consequent = x₀.consequent ∧
        x.antecedent = x₀.antecedent := by
    rcases mem_retitle hx with ⟨hx, -⟩ | rfl
    · exact ⟨x, hx, rfl, rfl, rfl, rfl⟩
    · exact ⟨r, hr, rfl, rfl, rfl, rfl⟩
  intro x hx y hy hlt huser hnot
  obtain ⟨x₀, hx₀, hxid, hxorigin, hxconsequent, hxantecedent⟩ := hold x hx
  obtain ⟨y₀, hy₀, hyid, hyorigin, hyconsequent, hyantecedent⟩ := hold y hy
  rw [hxid, hyid] at hlt
  rw [hxorigin] at hnot
  rw [hyorigin] at huser
  rw [Rule.isVariant, hxconsequent, hxantecedent, hyconsequent, hyantecedent]
  exact h x₀ hx₀ y₀ hy₀ hlt huser hnot

theorem Compared.change (hs : s.Indexed) (h : s.Compared)
    (hchange : Change (·.consequent.isLiteral = true) s s') : s'.Compared := by
  cases hchange with
  | aside hrules =>
    rw [Compared, hrules]
    exact h
  | user hp _ _ hnew =>
    obtain ⟨q, hq⟩ := Term.predicate?_isSome hp
    exact h.insert hs fun _ ↦ hnew (by rw [hq]; rfl)
  | hook => exact h.insert hs fun huser ↦ by cases huser
  | @transposition source c _ _ =>
    have hnamed : (s.takeName c).2.Indexed := hs.congr rfl rfl rfl
    have hcompared : (s.takeName c).2.Compared := h
    exact hcompared.insert hnamed fun huser ↦ by cases huser
  | detach id =>
    rw [Compared, rules_detach]
    intro x hx y hy
    exact h x (List.mem_filter.mp hx).1 y (List.mem_filter.mp hy).1
  | retitle hr _ => exact h.retitle hr

theorem ReachableBy.compared (h : s.ReachableBy (·.consequent.isLiteral = true)) : s.Compared :=
  h.of_changes (fun _ _ hx ↦ by cases hx) fun _ _ hs hc ↦ hc.change hs

theorem Reachable.isFact_of_isTransposition (h : s.Reachable) {T : Rule} (hT : T ∈ s.rules)
    (htransposition : T.origin.isTransposition = true) : T.isFact = false := by
  obtain ⟨source, hsource⟩ := exists_source htransposition
  obtain ⟨S, -, -, c, hc, -, hantecedent⟩ := h.transposed.exists_strict hT hsource
  rw [Rule.isFact, hantecedent]
  exact (Rule.mem_contrapositives hc).2.2.2

theorem Reachable.not_isVariant_of_hooks (h : s.Reachable) {x y : Rule} (hx : x ∈ s.rules)
    (hy : y ∈ s.rules) (hne : x.id ≠ y.id) {i j : RuleId} (hxi : x.origin = .hook i)
    (hyj : y.origin = .hook j) : x.isVariant y = false := by
  have hhooked := h.hooked
  obtain ⟨-, -, u, hu, rfl, -, hname, -⟩ := hhooked.asserted x hx i hxi
  obtain ⟨-, -, v, hv, rfl, -, hname', -⟩ := hhooked.asserted y hy j hyj
  have hids : u.id ≠ v.id := by
    intro hid
    rw [← hid] at hyj
    exact hne (hhooked.unique x hx y hy u.id hxi hyj)
  rw [← Bool.not_eq_true]
  intro hvariant
  exact h.apart u hu v hv hids List.not_mem_nil List.not_mem_nil _ _ hname hname'
    (Rule.resembles_of_isVariant hvariant).overlaps

/-- If all rules that are added conclude literals, a stored rule is a variant of an older one only
if that is a fact of a user and it is itself a hook. -/
theorem ReachableBy.variants_stored (h : s.ReachableBy (·.consequent.isLiteral = true)) :
    ∀ x ∈ s.rules, ∀ y ∈ s.rules, x.id < y.id → x.isVariant y = true →
      x.origin = .user ∧ x.isFact = true ∧ y.origin.isHook = true := by
  intro x hx y hy hlt hvariant
  have hreachable := h.reachable
  have htransposed := hreachable.transposed
  have hfact := Rule.isFact_of_isVariant hvariant
  have hnone (hfalse : x.isVariant y = false) : False := by
    rw [hvariant] at hfalse
    cases hfalse
  have hhook (z : Rule) (hz : z ∈ s.rules) {i : RuleId} (hzi : z.origin = .hook i) :
      z.isFact = true := hreachable.coherent.hooks z hz (by rw [hzi]; rfl)
  cases hyorigin : y.origin with
  | user =>
    cases hxorigin : x.origin with
    | transposition i =>
      exact (hnone (htransposed.not_isVariant hx (by rw [hxorigin]; rfl) hy
        (by rw [hyorigin]; rfl) (Nat.ne_of_lt hlt))).elim
    | user => exact (hnone (h.compared x hx y hy hlt hyorigin (by rw [hxorigin]; rfl))).elim
    | hook i => exact (hnone (h.compared x hx y hy hlt hyorigin (by rw [hxorigin]; rfl))).elim
  | transposition j =>
    have hynot := hreachable.isFact_of_isTransposition hy (by rw [hyorigin]; rfl)
    have hxhook : x.origin.isHook = false := by
      cases hxorigin : x.origin with
      | hook i =>
        rw [hhook x hx hxorigin, hynot] at hfact
        cases hfact
      | user => rfl
      | transposition i => rfl
    rw [Rule.isVariant_comm] at hnone
    exact (hnone (htransposed.not_isVariant hy (by rw [hyorigin]; rfl) hx hxhook
      (Nat.ne_of_gt hlt))).elim
  | hook j =>
    rw [hhook y hy hyorigin] at hfact
    cases hxorigin : x.origin with
    | user => exact ⟨rfl, hfact, rfl⟩
    | hook i =>
      exact (hnone (hreachable.not_isVariant_of_hooks hx hy (Nat.ne_of_lt hlt) hxorigin
        hyorigin)).elim
    | transposition i =>
      rw [hreachable.isFact_of_isTransposition hx (by rw [hxorigin]; rfl)] at hfact
      cases hfact

def doubled : RuleStore :=
  (Engine.addAll ⟨.default, .empty false⟩ [.plain (.const "r1") [] .one,
    .plain (.const "a") [.const "b"] .one]).2.store

theorem doubled_stored :
    doubled.rules.map Rule.text = ["r1.", "a <- b.", "r1."] ∧
    ∀ x ∈ doubled.rules, ∀ y ∈ doubled.rules, x.id < y.id → x.isVariant y = true →
      x.origin = .user ∧ x.isFact = true ∧ y.origin.isHook = true := by
  have hreachable : doubled.ReachableBy (·.consequent.isLiteral = true) :=
    Engine.addAll_reachableBy (.empty false) (by simp [Rule.plain, Term.isLiteral])
  exact ⟨by decide +kernel, hreachable.variants_stored⟩

/-- The hook repeats the fact. -/
theorem doubled_repeats :
    doubled.Reachable ∧ ∃ x ∈ doubled.rules, ∃ y ∈ doubled.rules, x.id ≠ y.id ∧
      x.isVariant y = true :=
  ⟨Engine.addAll_reachable (.empty false) _, by decide +kernel⟩

end Argumentation.RuleStore
