import Argumentation.Proofs.Argument.Denials
import Argumentation.Proofs.AttackGraph
import Mathlib.Data.List.Nodup

namespace Argumentation

section Distinct

variable {α : Type}

open Classical in
noncomputable def enterNew (kept : List α) (a : α) : List α :=
  if a ∈ kept then kept else kept ++ [a]

noncomputable def distinct (l : List α) : List α :=
  l.foldl enterNew []

theorem mem_foldl_enterNew {l kept : List α} {a : α} :
    a ∈ l.foldl enterNew kept ↔ a ∈ kept ∨ a ∈ l := by
  induction l generalizing kept with
  | nil => simp
  | cons b l ih =>
    rw [List.foldl_cons, ih, enterNew, List.mem_cons]
    split <;> grind

theorem nodup_foldl_enterNew {l kept : List α} (h : kept.Nodup) :
    (l.foldl enterNew kept).Nodup := by
  induction l generalizing kept with
  | nil => exact h
  | cons b l ih =>
    refine ih ?_
    unfold enterNew
    split
    · exact h
    · rename_i hb
      exact List.concat_eq_append ▸ h.concat hb

theorem mem_distinct {l : List α} {a : α} : a ∈ distinct l ↔ a ∈ l := by
  simp only [distinct, mem_foldl_enterNew, List.not_mem_nil, false_or]

theorem nodup_distinct (l : List α) : (distinct l).Nodup :=
  nodup_foldl_enterNew List.nodup_nil

end Distinct

def Attackers.forms (found : Attackers) : List Argument :=
  found.successful.map (·.attacker.form)

def Attackers.candidates (found : Attackers) : List Argument :=
  found.successful.map (·.attacker) ++ found.unsuccessful

namespace Arena

open AttackGraph

variable {arena : Arena}

def forms (arena : Arena) (goal : Term) : List Argument :=
  arena.theory.forms (arena.theory.maxDepth + 1) (.root 0) goal

/-- The forms of the arguments for the denials of a form that succeed against it. -/
def answers (arena : Arena) (x : Argument) : List Argument :=
  x.denials.flatMap fun (goal, attack) ↦ (arena.forms goal).filter (arena.succeeds · attack)

def mains (arena : Arena) : List Argument :=
  (arena.theory.store.rules.filter (·.consequent.isLiteral)).flatMap fun r ↦
    arena.forms r.consequent

/-- What a search for the attackers of an argument tries: the forms of the arguments for each of its
denials, with the attack that each is tried for. -/
def trials (arena : Arena) (a : Argument) : List (Argument × Attack) :=
  a.denials.flatMap fun (goal, attack) ↦ (arena.forms goal).map (·, attack)

def gather (arena : Arena) (found : Attackers) (cs : List (Argument × Attack)) : Attackers :=
  cs.foldl (fun found (c, attack) ↦ arena.enter attack found c) found

open Classical in
/-- The forms of the attackers of a form, in the order in which they are found. -/
noncomputable def attackersOf (arena : Arena) (x : Argument) : List Argument :=
  if x ∈ arena.mains then distinct (arena.answers x) else []

def Node (arena : Arena) (x : Argument) : Prop :=
  ∃ g s, g.isLiteral = true ∧ g.isGround = true ∧
    ∃ a ∈ ((arena.theory.arguments 0 g).toList s).1, a.form = x

/-- The attack graph: whether looking for the attackers of an argument for a ground literal finds
one of a given form. -/
def Attacks (arena : Arena) (y x : Argument) : Prop :=
  arena.Node x ∧ ∃ s, ∃ e ∈ (arena.findAttackers x s).1.successful, e.attacker.form = y

def Known (arena : Arena) (L : Ledger) (a : Argument) : Prop :=
  a.NumberedBy L ∧ a.form ∈ arena.mains

def KnownAttackers (arena : Arena) (L : Ledger) (found : Attackers) : Prop :=
  ∀ e ∈ found.successful, arena.Known L e.attacker

/-- The outcome of a search for the attackers of an argument: what was gathered from known arguments
of the forms that are to be tried. -/
def Found (arena : Arena) (L : Ledger) (a : Argument) (found : Attackers) : Prop :=
  ∃ cs, (∀ c ∈ cs, arena.Known L c.1) ∧ cs.map (fun c ↦ (c.1.form, c.2)) = arena.trials a ∧
    found = arena.gather .none cs

theorem Known.mono {L M : Ledger} {a : Argument} (h : arena.Known L a) (hLM : L ≤ M) :
    arena.Known M a :=
  ⟨h.1.mono hLM, h.2⟩

theorem Found.mono {L M : Ledger} {a : Argument} {found : Attackers} (h : arena.Found L a found)
    (hLM : L ≤ M) : arena.Found M a found := by
  obtain ⟨cs, hcs, h⟩ := h
  exact ⟨cs, fun c hc ↦ (hcs c hc).mono hLM, h⟩

theorem candidates_enter (attack : Attack) (found : Attackers) (c : Argument) :
    (arena.enter attack found c).candidates ⊆ c :: found.candidates := by
  intro a ha
  simp only [Attackers.candidates, enter] at ha ⊢
  split at ha
  · grind
  · split at ha <;> grind

theorem candidates_gather (found : Attackers) (cs : List (Argument × Attack)) :
    (arena.gather found cs).candidates ⊆ cs.map (·.1) ++ found.candidates := by
  induction cs generalizing found with
  | nil => exact fun _ ha ↦ ha
  | cons c cs ih =>
    intro a ha
    rcases List.mem_append.mp (ih (arena.enter c.2 found c.1) ha) with ha | ha
    · exact List.mem_append_left _ (.tail _ ha)
    · rcases List.mem_cons.mp (candidates_enter c.2 found c.1 ha) with rfl | ha
      · exact .head _
      · exact List.mem_append_right _ ha

theorem Found.known {L : Ledger} {a c : Argument} {found : Attackers} (h : arena.Found L a found)
    (hc : c ∈ found.candidates) : arena.Known L c := by
  obtain ⟨cs, hcs, -, rfl⟩ := h
  obtain ⟨d, hd, rfl⟩ : ∃ d ∈ cs, d.1 = c := by
    simpa [Attackers.candidates, Attackers.none] using candidates_gather .none cs hc
  exact hcs d hd

/-- The arguments at the root whose claim is plain attack an argument just when they are among its
answers. -/
theorem attacks_iff_mem_answers {x y : Argument} (hy : y.claim.isPlain = true)
    (hmain : y ∈ arena.forms y.claim) :
    y.attacks arena.restricted x = true ↔ y ∈ arena.answers x := by
  simp only [Argument.attacks_iff, attackOn?_isSome_iff, answers, List.mem_flatMap, List.mem_filter]
  constructor
  · rintro ⟨node, hnode, h | h⟩
    · obtain ⟨hdef, hneg⟩ := Argument.of_undercuts hy h
      exact ⟨(y.claim, ⟨.undercut, node⟩),
        Argument.mem_denials.mpr ⟨node, hnode, .inr ⟨hdef, hneg, rfl⟩⟩, hmain, h⟩
    · obtain ⟨hstrength, hneg⟩ := Argument.of_rebuts hy h
      exact ⟨(y.claim, ⟨.rebut, node⟩),
        Argument.mem_denials.mpr ⟨node, hnode, .inl ⟨hstrength, hneg, rfl⟩⟩, hmain, h⟩
  · rintro ⟨⟨g, attack⟩, hg, hforms, hs⟩
    obtain ⟨node, hnode, ⟨-, -, rfl⟩ | ⟨-, -, rfl⟩⟩ := Argument.mem_denials.mp hg
    · exact ⟨node, hnode, .inr hs⟩
    · exact ⟨node, hnode, .inl hs⟩

theorem mem_mains {x : Argument} : x ∈ arena.mains ↔ ∃ r ∈ arena.theory.store.rules,
    r.consequent.isLiteral = true ∧ x ∈ arena.forms r.consequent := by
  simp only [mains, List.mem_flatMap, List.mem_filter, and_assoc]

section Ground

variable (hground : arena.theory.store.IsGround)
include hground

theorem shaped_of_mem_mains {x : Argument} (h : x ∈ arena.mains) :
    arena.theory.Shaped 0 x ∧ x ∈ arena.forms x.claim := by
  obtain ⟨r, hr, -, hx⟩ := mem_mains.mp h
  obtain ⟨hc, -⟩ := Rule.isPlain_iff.mp (hground r hr)
  obtain ⟨hshaped, hclaim⟩ := Theory.shaped_of_mem_forms hground (.inl hc) hx
  exact ⟨hshaped, hclaim ▸ hx⟩

theorem mem_mains_of_mem_forms {goal : Term} (hlit : goal.isLiteral = true) {x : Argument}
    (h : x ∈ arena.forms goal) : x ∈ arena.mains := by
  rcases Theory.mem_forms.mp h with ⟨n, rfl, -⟩ | ⟨l, r, subs, -, -, -, hr, -, hsame, -⟩
  · cases hlit
  · have hmem := RuleStore.mem_of_mem_candidates hr
    obtain ⟨hc, -⟩ := Rule.isPlain_iff.mp (hground r hmem)
    obtain rfl := (Term.same_iff_of_plain _ goal hc).mp hsame
    exact mem_mains.mpr ⟨r, hmem, hlit, h⟩

theorem arguments_shows {g : Term} (hlit : g.isLiteral = true) (hg : g.isGround = true)
    (L : Ledger) : (arena.theory.arguments 0 g).Shows Argument.NumberedBy Argument.form L
      (arena.forms (Substitution.empty.apply g)) := by
  refine Theory.solve_shows hground _ (.inr ⟨Substitution.apply_isLiteral _ hlit, ?_⟩) L
  exact Substitution.apply_occurrences _ (List.isEmpty_iff.mp hg)

theorem node_iff {x : Argument} : arena.Node x ↔ x ∈ arena.mains := by
  constructor
  · rintro ⟨g, s, hlit, hg, a, ha, rfl⟩
    let L : Ledger := ⟨fun _ ↦ a, s.freeArgument⟩
    obtain ⟨M, -, -, hview, -⟩ :=
      (arguments_shows hground hlit hg L).toList Theory.numberedBy_stable (s := s) rfl
    refine mem_mains_of_mem_forms hground (Substitution.apply_isLiteral .empty hlit) ?_
    rw [← hview]
    exact List.mem_map_of_mem ha
  · intro hx
    obtain ⟨r, hr, hlit, hmem⟩ := mem_mains.mp hx
    obtain ⟨hc, -⟩ := Rule.isPlain_iff.mp (hground r hr)
    have hg : r.consequent.isGround = true := by
      rw [Term.isGround, Term.occurrences_of_plain _ hc]
      rfl
    let L : Ledger := ⟨fun _ ↦ x, 0⟩
    obtain ⟨M, -, -, hview, -⟩ :=
      (arguments_shows hground hlit hg L).toList Theory.numberedBy_stable (s := ⟨0, 0⟩) rfl
    rw [Substitution.apply_of_plain _ hc] at hview
    rw [← hview] at hmem
    obtain ⟨a, ha, rfl⟩ := List.mem_map.mp hmem
    exact ⟨_, _, hlit, hg, a, ha, rfl⟩

theorem answers_subset_mains {x : Argument} {d : Nat} (hx : arena.theory.Shaped d x) :
    arena.answers x ⊆ arena.mains := by
  intro y hy
  obtain ⟨⟨g, attack⟩, hg, hy⟩ := List.mem_flatMap.mp hy
  exact mem_mains_of_mem_forms hground (hx.denials hg).2 (List.mem_of_mem_filter hy)

theorem attackersOf_subset_mains {x : Argument} : arena.attackersOf x ⊆ arena.mains := by
  intro y hy
  unfold attackersOf at hy
  split at hy
  · rename_i hx
    exact answers_subset_mains hground (shaped_of_mem_mains hground hx).1 (mem_distinct.mp hy)
  · cases hy

theorem attacks_iff_of_mem_mains {x y : Argument} (hy : y ∈ arena.mains) (hx : x ∈ arena.mains) :
    y.attacks arena.restricted x = true ↔ y ∈ arena.attackersOf x := by
  obtain ⟨hshaped, hforms⟩ := shaped_of_mem_mains hground hy
  rw [attacks_iff_mem_answers hshaped.claim_isPlain hforms, attackersOf, if_pos hx, mem_distinct]

theorem Known.isSimilar_iff {L : Ledger} {a b : Argument} (ha : arena.Known L a)
    (hb : arena.Known L b) : a.isSimilar b = true ↔ a.form = b.form :=
  Argument.isSimilar_iff a b 0 (shaped_of_mem_mains hground ha.2).1
    (shaped_of_mem_mains hground hb.2).1 ha.1 hb.1

theorem enter_forms {L : Ledger} (attack : Attack) {found : Attackers} {c : Argument}
    (hfound : arena.KnownAttackers L found) (hc : arena.Known L c) :
    arena.KnownAttackers L (arena.enter attack found c) ∧
      (arena.enter attack found c).forms =
        if arena.succeeds c attack then enterNew found.forms c.form else found.forms := by
  have hany : (found.successful.any fun e ↦ e.attacker.isSimilar c) = true ↔
      c.form ∈ found.forms := by
    simp only [List.any_eq_true, Attackers.forms, List.mem_map]
    refine exists_congr fun e ↦ and_congr_right fun he ↦ ?_
    exact Known.isSimilar_iff hground (hfound e he) hc
  cases hs : arena.succeeds c attack with
  | false =>
    simp only [enter, hs, Bool.not_false, if_true, Bool.false_eq_true, if_false]
    exact ⟨hfound, rfl⟩
  | true =>
    by_cases hmem : c.form ∈ found.forms
    · simpa [enter, hs, hany.mpr hmem, enterNew, hmem] using hfound
    · have hnew := Bool.eq_false_iff.mpr (mt hany.mp hmem)
      simp only [enter, hs, Bool.not_true, Bool.false_eq_true, if_false, hnew, if_true, enterNew,
        if_neg hmem]
      refine ⟨fun e he ↦ ?_, by simp [Attackers.forms]⟩
      rcases List.mem_append.mp he with he | he
      · exact hfound e he
      · rw [List.mem_singleton.mp he]
        exact hc

theorem gather_forms {L : Ledger} {cs : List (Argument × Attack)} {found : Attackers}
    (hfound : arena.KnownAttackers L found) (hcs : ∀ c ∈ cs, arena.Known L c.1) :
    arena.KnownAttackers L (arena.gather found cs) ∧
      (arena.gather found cs).forms =
        ((cs.filter fun c ↦ arena.succeeds c.1 c.2).map (·.1.form)).foldl enterNew
          found.forms := by
  induction cs generalizing found with
  | nil => exact ⟨hfound, rfl⟩
  | cons c cs ih =>
    obtain ⟨hknown, hforms⟩ := enter_forms hground c.2 hfound (hcs c (.head _))
    obtain ⟨hknown', hforms'⟩ := ih hknown fun c' hc' ↦ hcs c' (.tail _ hc')
    refine ⟨hknown', hforms'.trans ?_⟩
    rw [hforms, List.filter_cons]
    split <;> rfl

/-- The candidates drawn for denials are gathered in the order in which they are drawn. -/
theorem foldl_denials_eq_gather {ds : List (Term × Attack)} {L : Ledger} {found : Attackers}
    {s : Supply} (hds : ∀ d ∈ ds, d.1.isPlain = true ∧ d.1.isLiteral = true)
    (hnext : L.next = s.freeArgument) :
    let result := ds.foldl (fun (found, s) (goal, attack) ↦
      let (candidates, s') := (arena.theory.arguments 0 goal).toList s
      (candidates.foldl (arena.enter attack) found, s')) (found, s)
    ∃ M cs, L ≤ M ∧ M.next = result.2.freeArgument ∧ (∀ c ∈ cs, arena.Known M c.1) ∧
      cs.map (fun c ↦ (c.1.form, c.2)) = ds.flatMap (fun d ↦ (arena.forms d.1).map (·, d.2)) ∧
      result.1 = arena.gather found cs := by
  induction ds generalizing L found s with
  | nil => exact ⟨L, [], L.le_refl, hnext, by simp, rfl, rfl⟩
  | cons d ds ih =>
    obtain ⟨hplain, hlit⟩ := hds d (.head _)
    have hg : d.1.isGround = true := by
      rw [Term.isGround, Term.occurrences_of_plain _ hplain]
      rfl
    have hshows := arguments_shows hground hlit hg L
    rw [Substitution.apply_of_plain _ hplain] at hshows
    obtain ⟨K, hLK, hK, hview, hgood⟩ := hshows.toList Theory.numberedBy_stable hnext
    have hknown : ∀ c ∈ ((arena.theory.arguments 0 d.1).toList s).1, arena.Known K c := by
      intro c hc
      refine ⟨hgood c hc, mem_mains_of_mem_forms hground hlit ?_⟩
      rw [← hview]
      exact List.mem_map_of_mem hc
    obtain ⟨M, cs, hKM, hM, hcs, hforms, hresult⟩ := ih (fun d' hd' ↦ hds d' (.tail _ hd')) hK
    refine ⟨M, ((arena.theory.arguments 0 d.1).toList s).1.map (·, d.2) ++ cs,
      Ledger.le_trans hLK hKM, hM, fun c hc ↦ ?_, ?_, hresult.trans ?_⟩
    · rcases List.mem_append.mp hc with hc | hc
      · obtain ⟨c', hc', rfl⟩ := List.mem_map.mp hc
        exact (hknown c' hc').mono hKM
      · exact hcs c hc
    · rw [List.map_append, hforms, List.flatMap_cons, ← hview, List.map_map, List.map_map]
      rfl
    · rw [gather, gather, List.foldl_append, List.foldl_map]

theorem findAttackers_found {a : Argument} (ha : a.form ∈ arena.mains) {L : Ledger} {s : Supply}
    (hnext : L.next = s.freeArgument) :
    ∃ M, L ≤ M ∧ M.next = (arena.findAttackers a s).2.freeArgument ∧
      arena.Found M a (arena.findAttackers a s).1 := by
  have hshaped := (shaped_of_mem_mains hground ha).1
  have hds : ∀ d ∈ a.denials, d.1.isPlain = true ∧ d.1.isLiteral = true := by
    intro d hd
    have hmem : (d.1, d.2.form) ∈ a.form.denials := by
      rw [Argument.denials_form]
      exact List.mem_map_of_mem hd
    exact hshaped.denials hmem
  obtain ⟨M, cs, hLM, hM, hcs, hforms, hresult⟩ := foldl_denials_eq_gather hground hds hnext
  exact ⟨M, hLM, hM, cs, hcs, hforms, hresult⟩

/-- The attackers found for a known argument are those of its form, each once. -/
theorem Found.forms {L : Ledger} {a : Argument} {found : Attackers} (h : arena.Found L a found)
    (ha : a.form ∈ arena.mains) :
    arena.KnownAttackers L found ∧ found.forms = arena.attackersOf a.form := by
  obtain ⟨cs, hcs, htrials, rfl⟩ := h
  obtain ⟨hknown, hforms⟩ := gather_forms hground
    (show arena.KnownAttackers L .none by simp [KnownAttackers, Attackers.none]) hcs
  refine ⟨hknown, hforms.trans ?_⟩
  have hsucceeds : (fun c : Argument × Attack ↦ arena.succeeds c.1 c.2) =
      (fun c ↦ arena.succeeds c.1 c.2.form) ∘ fun c ↦ (c.1.form, c.2) := by
    funext c
    exact (arena.succeeds_form c.1 c.2).symm
  have hanswers : (cs.filter fun c ↦ arena.succeeds c.1 c.2).map (·.1.form) =
      arena.answers a.form := by
    calc (cs.filter fun c ↦ arena.succeeds c.1 c.2).map (·.1.form)
        = ((arena.trials a).filter fun c ↦ arena.succeeds c.1 c.2.form).map (·.1) := by
          rw [← htrials, List.filter_map, List.map_map, hsucceeds]
          rfl
      _ = arena.answers a.form := by
          rw [trials, answers, Argument.denials_form, List.flatMap_map, List.filter_flatMap,
            List.map_flatMap]
          simp only [List.filter_map, List.map_map, Function.comp_def, List.map_id']
  rw [hanswers, attackersOf, if_pos ha]
  rfl

theorem attacks_iff_mem_attackersOf {x y : Argument} :
    arena.Attacks y x ↔ y ∈ arena.attackersOf x := by
  by_cases hx : x ∈ arena.mains
  · have hform : x.form = x := (shaped_of_mem_mains hground hx).1.form_eq
    have hfind (s : Supply) : (arena.findAttackers x s).1.forms = arena.attackersOf x := by
      let L : Ledger := ⟨fun _ ↦ x, s.freeArgument⟩
      have hx' : x.form ∈ arena.mains := hform.symm ▸ hx
      have hnext : L.next = s.freeArgument := rfl
      obtain ⟨M, -, -, hfound⟩ := findAttackers_found hground hx' hnext
      rw [(hfound.forms hground hx').2, hform]
    constructor
    · rintro ⟨-, s, e, he, rfl⟩
      rw [← hfind s]
      exact List.mem_map_of_mem he
    · intro hy
      rw [← hfind ⟨0, 0⟩] at hy
      obtain ⟨e, he, rfl⟩ := List.mem_map.mp hy
      exact ⟨(node_iff hground).mpr hx, ⟨0, 0⟩, e, he, rfl⟩
  · rw [attackersOf, if_neg hx]
    exact iff_of_false (fun h ↦ hx ((node_iff hground).mp h.1)) (List.not_mem_nil)

theorem attacks_eq_lists : arena.Attacks = fun y x ↦ y ∈ arena.attackersOf x := by
  funext y x
  exact propext (attacks_iff_mem_attackersOf hground)

theorem mem_mains_of_attacks {x y : Argument} (h : arena.Attacks y x) : y ∈ arena.mains :=
  attackersOf_subset_mains hground ((attacks_iff_mem_attackersOf hground).mp h)

theorem attacks_iff_of_mem {x y : Argument} (hx : x ∈ arena.mains) :
    arena.Attacks y x ↔ y ∈ arena.answers x := by
  rw [attacks_iff_mem_attackersOf hground, attackersOf, if_pos hx, mem_distinct]

theorem attacks_iff_deep {x y : Argument} (hy : y ∈ arena.mains) (hx : x ∈ arena.mains) :
    arena.Attacks y x ↔ y.attacks arena.restricted x = true := by
  rw [attacks_iff_mem_attackersOf hground, attacks_iff_of_mem_mains hground hy hx]

/-- Nodes that do not attack each other and attack all their attackers form an admissible set. -/
theorem exists_admissible {nodes : List Argument} (hmains : nodes ⊆ arena.mains)
    (hfree : ∀ x ∈ nodes, ∀ y ∈ nodes, y.attacks arena.restricted x = false)
    (hdefends : ∀ x ∈ nodes, ∀ y ∈ arena.answers x, ∃ z ∈ nodes,
      z.attacks arena.restricted y = true) {a : Argument} (ha : a ∈ nodes) :
    ∃ A, Admissible arena.Attacks A ∧ a ∈ A := by
  refine ⟨{x | x ∈ nodes}, ⟨fun x hx y hy hyx ↦ ?_, fun x hx y hyx ↦ ?_⟩, ha⟩
  · rw [attacks_iff_deep hground (hmains hy) (hmains hx), hfree x hx y hy] at hyx
    cases hyx
  · have hymain := mem_mains_of_attacks hground hyx
    obtain ⟨z, hz, hzy⟩ := hdefends x hx y ((attacks_iff_of_mem hground (hmains hx)).mp hyx)
    exact ⟨z, hz, (attacks_iff_deep hground (hmains hz) hymain).mpr hzy⟩

/-- Nothing defends an argument but itself and arguments that nothing attacks, if its attackers have
no others. -/
theorem defender_of_answers {x p : Argument} (hx : x ∈ arena.mains)
    (h : ∀ y ∈ arena.answers x, ∀ z ∈ arena.answers y, arena.answers z = [])
    (hp : Defender arena.Attacks x p) : p = x ∨ p ∈ arena.mains ∧ arena.answers p = [] := by
  induction hp with
  | self => exact .inl rfl
  | @step p y z _ hy hz ih =>
    have hymain := mem_mains_of_attacks hground hy
    rcases ih with rfl | ⟨hp, hnone⟩
    · rw [attacks_iff_of_mem hground hx] at hy
      rw [attacks_iff_of_mem hground hymain] at hz
      have hzmain := answers_subset_mains hground (shaped_of_mem_mains hground hymain).1 hz
      exact .inr ⟨hzmain, h y hy z hz⟩
    · rw [attacks_iff_of_mem hground hp, hnone] at hy
      cases hy

end Ground

theorem nodup_attackersOf (x : Argument) : (arena.attackersOf x).Nodup := by
  unfold attackersOf
  split
  · exact nodup_distinct _
  · exact List.nodup_nil

end Arena

end Argumentation
