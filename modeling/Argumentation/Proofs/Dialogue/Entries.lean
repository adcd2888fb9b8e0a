import Argumentation.Proofs.Dialogue.Reached
import Mathlib.Data.List.Find

namespace Argumentation

/-- An attack that is listed agrees with one found node by node if both are on one node and of one
kind. Where the claim of the node and the name of its rule have the same contrary, a rebuttal may be
listed although an undercut is found. -/
structure Attack.Agrees (listed deep : Attack) : Prop where
  target : listed.target = deep.target
  kind : listed.kind = deep.kind ∨ listed.kind = .rebut ∧ deep.kind = .undercut ∧
    listed.target.claim.negation? = listed.target.ruleName?.bind Term.negation?

section FindSome

variable {α β : Type} {l : List α}

theorem findSome?_congr {f g : α → Option β} (h : ∀ a ∈ l, f a = g a) :
    l.findSome? f = l.findSome? g := by
  induction l with
  | nil => rfl
  | cons a l ih =>
    rw [List.findSome?_cons, List.findSome?_cons, h a (.head _), ih fun b hb ↦ h b (.tail _ hb)]

theorem findSome?_rel {r : β → β → Prop} {f g : α → Option β}
    (h : ∀ a ∈ l, Option.Rel r (f a) (g a)) :
    Option.Rel r (l.findSome? f) (l.findSome? g) := by
  induction l with
  | nil => exact .none
  | cons a l ih =>
    rw [List.findSome?_cons, List.findSome?_cons]
    have ha := h a (.head _)
    generalize f a = x, g a = y at ha
    cases ha with
    | some hr => exact .some hr
    | none => exact ih fun b hb ↦ h b (.tail _ hb)

end FindSome

namespace Arena

variable {arena : Arena}

def firstAttack? (arena : Arena) (y v : Argument) : Option Attack :=
  (v.denials.map (·.2)).find? (arena.succeeds y)

theorem claim_of_succeeds {y v : Argument} (hy : y.claim.isPlain = true) {g : Term}
    {attack : Attack} (hg : (g, attack) ∈ v.denials) (h : arena.succeeds y attack = true) :
    y.claim = g := by
  obtain ⟨node, -, ⟨-, hneg, rfl⟩ | ⟨-, hneg, rfl⟩⟩ := Argument.mem_denials.mp hg
  · exact Option.some.inj ((Argument.of_rebuts hy h).2.symm.trans hneg)
  · exact Option.some.inj ((Argument.of_undercuts hy h).2.symm.trans hneg)

/-- An attack is found by its denial if it succeeds only where there is one. -/
theorem find?_denial {p : Attack → Bool} {goal : Option Term} {attack : Attack}
    (h : p attack = true → goal.isSome = true) :
    ((goal.map (·, attack)).toList.map (·.2)).find? p = if p attack then some attack else none := by
  cases goal with
  | some g => exact List.find?_singleton
  | none =>
    rw [if_neg fun hp ↦ Bool.false_ne_true (h hp)]
    rfl

/-- On each node the denials of the claim are tried before those of the name, whereas undercuts are
looked for before rebuttals. -/
theorem firstAttack?_agrees {y v : Argument} (hy : y.claim.isPlain = true) :
    Option.Rel Attack.Agrees (arena.firstAttack? y v) (y.deepAttack? arena.restricted v) := by
  simp only [firstAttack?, Argument.denials, Argument.deepAttack?, List.map_flatMap,
    List.find?_flatMap]
  refine findSome?_rel fun node hnode ↦ ?_
  have hrebut (h : y.rebuts arena.restricted node = true) :
      (if node.strength = .one then none else node.claim.negation?) = some y.claim := by
    obtain ⟨hstrength, hneg⟩ := Argument.of_rebuts hy h
    rw [if_neg hstrength, hneg]
  have hundercut (h : y.undercuts node = true) :
      (if node.rule.isDefeasible then node.ruleName?.bind Term.negation? else none) =
        some y.claim := by
    obtain ⟨hdef, hneg⟩ := Argument.of_undercuts hy h
    rw [if_pos hdef, hneg]
  rw [List.map_append, List.find?_append,
    find?_denial fun h ↦ Option.isSome_of_eq_some (hrebut h),
    find?_denial fun h ↦ Option.isSome_of_eq_some (hundercut h)]
  -- Only where both succeed does it matter which is tried first.
  cases hr : y.rebuts arena.restricted node <;> cases hu : y.undercuts node <;>
    simp only [Argument.attackOn?, succeeds, hr, hu]
  · exact .none
  · exact .some ⟨rfl, .inl rfl⟩
  · exact .some ⟨rfl, .inl rfl⟩
  · have hsame := (Argument.of_rebuts hy hr).2.trans (Argument.of_undercuts hy hu).2.symm
    exact .some ⟨rfl, .inr ⟨rfl, rfl, hsame⟩⟩

section Ground

variable (hground : arena.theory.store.IsGround)
include hground

/-- A candidate is listed for an argument if it is the first to succeed that is similar to it. -/
theorem find?_enter {L : Ledger} (attack : Attack) {found : Attackers} {c y : Argument}
    (hfound : arena.KnownAttackers L found) (hc : arena.Known L c) (hy : arena.Known L y) :
    (arena.enter attack found c).successful.find? (·.attacker.isSimilar y) =
      (found.successful.find? (·.attacker.isSimilar y)).or
        (if arena.succeeds c attack && c.isSimilar y then some ⟨c, attack⟩ else none) := by
  unfold enter
  cases hs : arena.succeeds c attack with
  | false => simp
  | true =>
    cases hany : found.successful.any fun e ↦ e.attacker.isSimilar c with
    | false => simp [List.find?_append, List.find?_singleton]
    | true =>
      cases hcy : c.isSimilar y with
      | false => simp
      | true =>
        -- `c` is dropped for `e`, which is similar to `y` as well, so one is listed already.
        obtain ⟨e, he, hec⟩ := List.any_eq_true.mp hany
        have hsim : e.attacker.isSimilar y = true := by
          rw [Known.isSimilar_iff hground (hfound e he) hy,
            (Known.isSimilar_iff hground (hfound e he) hc).mp hec,
            (Known.isSimilar_iff hground hc hy).mp hcy]
        have hsome : (found.successful.find? (·.attacker.isSimilar y)).isSome = true :=
          List.find?_isSome.mpr ⟨e, he, hsim⟩
        obtain ⟨e', he'⟩ := Option.isSome_iff_exists.mp hsome
        simp [he']

theorem find?_gather {L : Ledger} {cs : List (Argument × Attack)} {found : Attackers} {y : Argument}
    (hfound : arena.KnownAttackers L found) (hcs : ∀ c ∈ cs, arena.Known L c.1)
    (hy : arena.Known L y) :
    (arena.gather found cs).successful.find? (·.attacker.isSimilar y) =
      (found.successful.find? (·.attacker.isSimilar y)).or
        ((cs.find? fun c ↦ arena.succeeds c.1 c.2 && c.1.isSimilar y).map
          fun c ↦ ⟨c.1, c.2⟩) := by
  induction cs generalizing found with
  | nil => simp [gather]
  | cons c cs ih =>
    have hc := hcs c (.head _)
    have hknown := (enter_forms hground c.2 hfound hc).1
    have hrest : arena.gather found (c :: cs) = arena.gather (arena.enter c.2 found c.1) cs := rfl
    rw [hrest, ih hknown fun c' hc' ↦ hcs c' (.tail _ hc'), find?_enter hground c.2 hfound hc hy,
      Option.or_assoc, List.find?_cons]
    cases arena.succeeds c.1 c.2 && c.1.isSimilar y <;> simp

open Classical in
/-- The first trial of a form that succeeds is that of the first denial with which it succeeds. -/
theorem find?_trials {y v : Argument} (hy : y.form ∈ arena.mains) :
    ((arena.trials v).find? fun d ↦ d.1 = y.form && arena.succeeds y d.2).map (·.2) =
      arena.firstAttack? y v := by
  obtain ⟨hshaped, hforms⟩ := shaped_of_mem_mains hground hy
  have hplain := hshaped.claim_isPlain
  rw [y.form_claim] at hforms hplain
  rw [trials, List.find?_flatMap, List.map_findSome?, firstAttack?, List.find?_map,
    List.find?_eq_findSome?_guard, List.map_findSome?]
  refine findSome?_congr fun d hd ↦ ?_
  cases hs : arena.succeeds y d.2 with
  | false =>
    simp [List.find?_map, Function.comp_def, Option.guard, hs]
  | true =>
    have hclaim : y.claim = d.1 := claim_of_succeeds hplain hd hs
    rw [hclaim] at hforms
    obtain ⟨x, hx⟩ : ∃ x, (arena.forms d.1).find? (fun x ↦ decide (x = y.form)) = some x :=
      Option.isSome_iff_exists.mp (List.find?_isSome.mpr ⟨_, hforms, by simp⟩)
    simp [List.find?_map, Option.guard, hs, hx]

/-- An argument is listed with the attack of the first denial with which it succeeds. -/
theorem Found.find?_attack {L : Ledger} {v y : Argument} {found : Attackers}
    (h : arena.Found L v found) (hy : arena.Known L y) :
    (found.successful.find? (·.attacker.isSimilar y)).map (·.attack) = arena.firstAttack? y v := by
  classical
  obtain ⟨cs, hcs, htrials, rfl⟩ := h
  have hfind : (cs.find? fun c ↦ arena.succeeds c.1 c.2 && c.1.isSimilar y) =
      cs.find? ((fun d ↦ d.1 = y.form && arena.succeeds y d.2) ∘ fun c ↦ (c.1.form, c.2)) := by
    refine List.find?_congr fun c hc ↦ ?_
    have hsim := Known.isSimilar_iff hground (hcs c hc) hy
    by_cases hform : c.1.form = y.form
    · have hs : arena.succeeds c.1 c.2 = arena.succeeds y c.2 := by
        rw [← arena.succeeds_form c.1, hform, arena.succeeds_form]
      simp [hsim.mpr hform, hform, hs]
    · simp [Bool.eq_false_iff.mpr (mt hsim.mp hform), hform]
  rw [find?_gather hground (by simp [KnownAttackers, Attackers.none]) hcs hy, hfind,
    ← find?_trials hground hy.2, ← htrials, List.find?_map]
  simp [Attackers.none, Function.comp_def]

theorem Found.pairwise {L : Ledger} {v : Argument} {found : Attackers} (h : arena.Found L v found)
    (hv : v.form ∈ arena.mains) :
    found.successful.Pairwise fun e e' ↦ e.attacker.isSimilar e'.attacker = false := by
  obtain ⟨hknown, hforms⟩ := h.forms hground hv
  have hnodup : found.forms.Nodup := hforms ▸ nodup_attackersOf v.form
  refine (List.pairwise_map.mp hnodup).imp_of_mem fun he he' hne ↦ ?_
  exact Bool.eq_false_iff.mpr (mt (Known.isSimilar_iff hground (hknown _ he) (hknown _ he')).mp hne)

theorem Found.attack_eq {L : Ledger} {v y : Argument} {found : Attackers}
    (h : arena.Found L v found) (hv : v.form ∈ arena.mains) (hy : arena.Known L y)
    {e : AttackerEntry} (he : e ∈ found.successful) (hey : e.attacker.isSimilar y = true) :
    arena.firstAttack? y v = some e.attack := by
  obtain ⟨hknown, hforms⟩ := h.forms hground hv
  have hnodup : found.forms.Nodup := hforms ▸ nodup_attackersOf v.form
  obtain ⟨e', hfind⟩ : ∃ e', found.successful.find? (·.attacker.isSimilar y) = some e' :=
    Option.isSome_iff_exists.mp (List.find?_isSome.mpr ⟨e, he, hey⟩)
  have he' := List.mem_of_find?_eq_some hfind
  have hsim := List.find?_some hfind
  have hform : e'.attacker.form = e.attacker.form := by
    rw [(Known.isSimilar_iff hground (hknown e' he') hy).mp hsim,
      (Known.isSimilar_iff hground (hknown e he) hy).mp hey]
  have heq : e' = e := List.inj_on_of_nodup_map hnodup he' he hform
  rw [← h.find?_attack hground hy, hfind, heq, Option.map_some]

theorem Found.exists_similar_iff {L : Ledger} {v y : Argument} {found : Attackers}
    (h : arena.Found L v found) (hy : arena.Known L y) :
    (∃ e ∈ found.successful, e.attacker.isSimilar y = true) ↔
      (arena.firstAttack? y v).isSome = true := by
  rw [← h.find?_attack hground hy, Option.isSome_map, List.find?_isSome]

end Ground

end Arena

/-- Over a ground store, the attackers that are listed for an argument at hand are those that attack
it deeply, with an attack that agrees, and no two of them are similar. -/
theorem Search.attackersOf_agrees {arena : Arena} (hground : arena.theory.store.IsGround)
    {σ : Session} {flows : List (Flow ArgumentList)} {drawn : List Argument}
    (hσ : Session.Explored arena σ flows drawn) {v y : Argument} (hv : σ.Holds drawn v)
    (hy : σ.Holds drawn y) :
    ∃ entries τ, attackersOf arena v σ = some (entries, τ) ∧
      ((∃ e ∈ entries, e.attacker.isSimilar y = true) ↔
        (y.deepAttack? arena.restricted v).isSome = true) ∧
      (∀ e ∈ entries, e.attacker.isSimilar y = true →
        ∃ attack, y.deepAttack? arena.restricted v = some attack ∧ e.attack.Agrees attack) ∧
      entries.Pairwise fun e e' ↦ e.attacker.isSimilar e'.attacker = false := by
  obtain ⟨L, hknown⟩ := hσ.known hground
  have hvmain := (hknown.of_holds hv).2
  obtain ⟨found, τ, M, hrun, hLM, -, hfound⟩ :=
    attackersOf_coherent hground hknown.coherent (hknown.of_holds hv)
  have hyM := (hknown.of_holds hy).mono hLM
  have hplain : y.claim.isPlain = true := by
    rw [← y.form_claim]
    exact (Arena.shaped_of_mem_mains hground hyM.2).1.claim_isPlain
  have hagrees := arena.firstAttack?_agrees (v := v) hplain
  refine ⟨found.successful, τ, hrun, ?_, fun e he hey ↦ ?_, hfound.pairwise hground hvmain⟩
  · rw [hfound.exists_similar_iff hground hyM]
    generalize arena.firstAttack? y v = x, y.deepAttack? arena.restricted v = z at hagrees
    cases hagrees <;> rfl
  · rw [hfound.attack_eq hground hvmain hyM he hey] at hagrees
    generalize y.deepAttack? arena.restricted v = z at hagrees
    cases hagrees with
    | some h => exact ⟨_, rfl, h⟩

/-- The first arguments for two literals together and the session in which they are drawn. -/
def Session.firstPair? (arena : Arena) (g h : Term) : Option (Argument × Argument × Session) :=
  match (arena.theory.argumentLists 0 [g, h]).next ⟨1, 1⟩ with
  | (some (l, _), s) =>
    match l.arguments with
    | [v, y] => some (v, y, ⟨.empty, s⟩)
    | _ => none
  | (none, _) => none

theorem Session.explored_of_firstPair? {arena : Arena} {g h : Term} {v y : Argument} {σ : Session}
    (hpair : firstPair? arena g h = some (v, y, σ)) (hg : g.isLiteral = true ∧ g.isGround = true)
    (hh : h.isLiteral = true ∧ h.isGround = true) :
    ∃ flows drawn, Explored arena σ flows drawn ∧ σ.Holds drawn v ∧ σ.Holds drawn y := by
  unfold firstPair? at hpair
  split at hpair
  · rename_i l rest s hnext
    split at hpair
    · rename_i v y hl
      cases hpair
      have hask : Explored arena ⟨.empty, ⟨1, 1⟩⟩ [arena.theory.argumentLists 0 [g, h]] [] :=
        .ask 0 [g, h] (.fresh _) (by simpa using ⟨hg, hh⟩)
      refine ⟨_, _, hask.draw (.head _) hnext, .inl ?_, .inl ?_⟩ <;> simp [hl]
    · cases hpair
  · cases hpair

def namedStep : Arena :=
  .ofAtoms .weakestLink [("a", [], .half), ("b", ["a"], .half), ("c", ["b"], .half),
    ("~r1", [], .half)]

theorem Search.namedStep_listed : namedStep.theory.store.IsGround ∧
    ∃ v y σ, Session.firstPair? namedStep (.const "c") (.const "~r1") = some (v, y, σ) ∧
      ∃ flows drawn, Session.Explored namedStep σ flows drawn ∧ σ.Holds drawn v ∧
        σ.Holds drawn y ∧ ∃ entries τ, attackersOf namedStep v σ = some (entries, τ) ∧
        (∃ e ∈ entries, e.attacker.isSimilar y = true ∧
          ∃ attack, y.deepAttack? namedStep.restricted v = some attack ∧ e.attack.Agrees attack) ∧
        entries.Pairwise fun e e' ↦ e.attacker.isSimilar e'.attacker = false := by
  have hground : namedStep.theory.store.IsGround := by
    unfold RuleStore.IsGround
    decide +kernel
  have hcheck : (Session.firstPair? namedStep (.const "c") (.const "~r1")).any (fun (v, y, _) ↦
      (y.deepAttack? namedStep.restricted v).isSome) = true := by
    decide +kernel
  obtain ⟨⟨v, y, σ⟩, hpair, hattack⟩ := (Option.any_eq_true _ _).mp hcheck
  obtain ⟨flows, drawn, hσ, hv, hy⟩ := Session.explored_of_firstPair? hpair ⟨rfl, rfl⟩ ⟨rfl, rfl⟩
  obtain ⟨entries, τ, hrun, hiff, hagrees, hpairwise⟩ := attackersOf_agrees hground hσ hv hy
  obtain ⟨e, he, hey⟩ := hiff.mpr hattack
  exact ⟨hground, v, y, σ, hpair, flows, drawn, hσ, hv, hy, entries, τ, hrun,
    ⟨e, he, hey, hagrees e he hey⟩, hpairwise⟩

/-- The name of the rule for `p` is another literal than `p`, with the same contrary. -/
def doubleDenial : Arena where
  theory :=
    { store := (Engine.default.addAll [(Rule.plain (.const "p") [] .half).withName (.const "~~p"),
        .plain (.const "~p") [] .threeQuarters]).2.store
      valuation := .weakestLink
      maxDepth := Settings.default.maxDepth }
  restricted := false

/-- The two attacks may be of different kinds even if no rule is named by its own conclusion. -/
theorem Search.doubleDenial_disagrees : doubleDenial.theory.store.IsGround ∧
    (∀ r ∈ doubleDenial.theory.store.rules, r.name ≠ some r.consequent) ∧
    ∃ v y σ, Session.firstPair? doubleDenial (.const "p") (.const "~p") = some (v, y, σ) ∧
      ∃ flows drawn, Session.Explored doubleDenial σ flows drawn ∧ σ.Holds drawn v ∧
        σ.Holds drawn y ∧ ∃ entries τ, attackersOf doubleDenial v σ = some (entries, τ) ∧
        ∃ e ∈ entries, e.attacker.isSimilar y = true ∧
          ∃ attack, y.deepAttack? doubleDenial.restricted v = some attack ∧
            e.attack.kind = .rebut ∧ attack.kind = .undercut := by
  have hground : doubleDenial.theory.store.IsGround := by
    unfold RuleStore.IsGround
    decide +kernel
  have hnames : (doubleDenial.theory.store.rules.all fun r ↦
      !r.name.any r.consequent.same) = true := by
    decide +kernel
  have hcheck : (Session.firstPair? doubleDenial (.const "p") (.const "~p")).any (fun (v, y, σ) ↦
      (attackersOf doubleDenial v σ).any fun (entries, _) ↦ entries.any fun e ↦
        e.attacker.isSimilar y && (y.deepAttack? doubleDenial.restricted v).any fun attack ↦
          e.attack.kind = .rebut && attack.kind = .undercut) = true := by
    decide +kernel
  refine ⟨hground, fun r hr hname ↦ ?_, ?_⟩
  · have hself := (Term.same_iff_of_plain _ r.consequent (Rule.isPlain_iff.mp (hground r hr)).1).mpr
      rfl
    have hall := List.all_eq_true.mp hnames r hr
    simp [hname, hself] at hall
  · obtain ⟨⟨v, y, σ⟩, hpair, hcheck⟩ := (Option.any_eq_true _ _).mp hcheck
    obtain ⟨flows, drawn, hσ, hv, hy⟩ :=
      Session.explored_of_firstPair? hpair ⟨rfl, rfl⟩ ⟨rfl, rfl⟩
    obtain ⟨⟨entries, τ⟩, hrun, hcheck⟩ := (Option.any_eq_true _ _).mp hcheck
    obtain ⟨e, he, hcheck⟩ := List.any_eq_true.mp hcheck
    obtain ⟨hey, hattack⟩ := Bool.and_eq_true_iff.mp hcheck
    obtain ⟨attack, hdeep, hkinds⟩ := (Option.any_eq_true _ _).mp hattack
    obtain ⟨hlisted, hundercut⟩ := Bool.and_eq_true_iff.mp hkinds
    exact ⟨v, y, σ, hpair, flows, drawn, hσ, hv, hy, entries, τ, hrun, e, he, hey, attack, hdeep,
      of_decide_eq_true hlisted, of_decide_eq_true hundercut⟩

end Argumentation
