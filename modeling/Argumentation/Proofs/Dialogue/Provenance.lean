import Argumentation.Proofs.Argument.Strictness
import Argumentation.Proofs.Dialogue.Conduct
import Argumentation.Proofs.Dialogue.Reached
import Argumentation.Proofs.Dialogue.Tandem

namespace Argumentation

namespace Session

def HoldsNode (σ : Session) (drawn : List Argument) (n : Argument) : Prop :=
  ∃ a, σ.Holds drawn a ∧ n ∈ a.subtree

/-- The sessions over any store, with the flows that they can draw from and the arguments that they
have drawn: queries are asked under any bindings, and arguments at hand and their nodes are disputed
or their attackers looked for. -/
inductive Reachable (arena : Arena) : Session → List (Flow ArgumentList) → List Argument → Prop
  | fresh (s : Supply) : Reachable arena ⟨.empty, s⟩ [] []
  | ask {σ flows drawn} (m : Threshold) (s : Substitution) (es : List Term) :
      Reachable arena σ flows drawn → Reachable arena σ
        (Theory.lists (fun u e ↦ arena.theory.argumentsUnder u m e) es (.empty s) :: flows) drawn
  | draw {σ flows drawn f l rest s} : Reachable arena σ flows drawn → f ∈ flows →
      f.next σ.supply = (some (l, rest), s) →
      Reachable arena { σ with supply := s } (rest :: flows) (l.arguments ++ drawn)
  | exhaust {σ flows drawn f s} : Reachable arena σ flows drawn → f ∈ flows →
      f.next σ.supply = (none, s) → Reachable arena { σ with supply := s } flows drawn
  | note {σ flows drawn p} : Reachable arena σ flows drawn →
      p.attackers = σ.proof.attackers → Reachable arena { σ with proof := p } flows drawn
  | look {σ τ flows drawn a entries} : Reachable arena σ flows drawn → σ.HoldsNode drawn a →
      Search.attackersOf arena a σ = some (entries, τ) → Reachable arena τ flows drawn
  | dispute {σ τ flows drawn a semantics moves outcome} : Reachable arena σ flows drawn →
      σ.HoldsNode drawn a →
      Semantics.defend semantics arena moves (.seeded a) σ = some (outcome, τ) →
      Reachable arena τ flows drawn

theorem reachable_of_first? {arena : Arena} {g : Term} {a : Argument} {σ : Session}
    (h : first? arena g = some (a, σ)) :
    ∃ flows drawn, Reachable arena σ flows drawn ∧ a ∈ drawn := by
  obtain ⟨l, rest, s, ha, rfl, hnext⟩ := next_of_first? h
  have hask : Reachable arena ⟨.empty, ⟨1, 1⟩⟩ [arena.theory.argumentLists 0 [g]] [] :=
    .ask 0 .empty [g] (.fresh _)
  exact ⟨_, _, hask.draw (.head _) hnext, List.mem_append_left _ ha⟩

end Session

variable {arena : Arena} {L M : Register Argument} {a : Argument} {σ τ : Session}

namespace Theory

variable {t : Theory}

def Registered (t : Theory) (L : Register Argument) (a : Argument) : Prop :=
  ∀ n ∈ a.subtree, n.EnteredIn L ∧ t.Builds n

theorem enduring_registered : Flow.Enduring t.Registered :=
  fun _ _ _ hLM h n hn ↦ ⟨hLM _ _ (h n hn).1, (h n hn).2⟩

theorem Registered.entered (h : t.Registered L a) : a.EnteredIn L :=
  (h a a.self_mem_subtree).1

theorem Registered.node (h : t.Registered L a) {n : Argument} (hn : n ∈ a.subtree) :
    t.Registered L n :=
  fun m hm ↦ h m (Argument.mem_subtree_trans hn hm)

theorem Registered.isValued (h : t.Registered L a) : a.IsValued t.valuation :=
  fun n hn ↦ (h n hn).2.strength_eq

theorem inherited_nodes : Inherited fun L a ↦ ∀ n ∈ a.subtree, n.EnteredIn L where
  enduring _ _ _ hLM h n hn := hLM _ _ (h n hn)
  step h hsubs := Argument.forall_mem_subtree.mpr ⟨h, hsubs⟩

theorem arguments_registered (t : Theory) (m : Threshold) (e : Term) (L : Register Argument) :
    (t.arguments m e).Registers t.Registered L :=
  (solve_registers inherited_nodes _ _ _ _ L).of_all (t.solve_built _ _ _ _)
    fun _ _ hentered hbuilt n hn ↦ ⟨hentered n hn, hbuilt.builds n hn⟩

theorem listsUnder_registered (t : Theory) (m : Threshold) (es : List Term) (s : Substitution)
    (L : Register Argument) :
    (lists (fun u e ↦ t.argumentsUnder u m e) es (.empty s)).Registers (ListOf t.Registered) L :=
  (t.listsUnder_registers inherited_nodes m es s L).of_all
    (lists_built (.empty (.root m) s) fun _ _ ↦ solve_built _ _ _ _)
    fun _ _ hentered hbuilt a ha n hn ↦ ⟨hentered a ha n hn, hbuilt.builds a ha n hn⟩

end Theory

namespace Arena

/-- What was found for an argument: some that attack it, and none that are not registered. -/
structure FoundFor (arena : Arena) (L : Register Argument) (a : Argument) (found : Attackers) :
    Prop where
  attacks : ∀ e ∈ found.successful, e.attacker.attacks arena.restricted a = true
  registered : ∀ c ∈ found.candidates, arena.theory.Registered L c

theorem FoundFor.mono {found : Attackers} (h : arena.FoundFor L a found) (hLM : L ≤ M) :
    arena.FoundFor M a found :=
  ⟨h.attacks, fun c hc ↦ Theory.enduring_registered _ _ _ hLM (h.registered c hc)⟩

theorem FoundFor.attacker {found : Attackers} (h : arena.FoundFor L a found) {e : AttackerEntry}
    (he : e ∈ found.successful) : arena.theory.Registered L e.attacker :=
  h.registered _ (List.mem_append_left _ (List.mem_map_of_mem he))

theorem foldl_enter_candidates {P : Argument → Prop} {attack : Attack} {found : Attackers}
    {cs : List Argument} (hfound : ∀ c ∈ found.candidates, P c) (hcs : ∀ c ∈ cs, P c) :
    ∀ c ∈ (cs.foldl (arena.enter attack) found).candidates, P c := by
  induction cs generalizing found with
  | nil => exact hfound
  | cons c cs ih =>
    obtain ⟨hc, hcs⟩ := List.forall_mem_cons.mp hcs
    refine ih (fun d hd ↦ ?_) hcs
    rcases List.mem_cons.mp (candidates_enter attack found c hd) with rfl | hd
    · exact hc
    · exact hfound d hd

theorem foldl_collect_registered (arena : Arena) (ds : List (Term × Attack))
    {x : Attackers × Supply} (hx : ∀ c ∈ x.1.candidates, arena.theory.Registered L c)
    (hfree : ∀ id, x.2.freeArgument ≤ id → L id = none) :
    ∃ M, L.Continues x.2.freeArgument M (ds.foldl arena.collect x).2.freeArgument ∧
      ∀ c ∈ (ds.foldl arena.collect x).1.candidates, arena.theory.Registered M c := by
  induction ds generalizing L x with
  | nil => exact ⟨L, .refl hfree, hx⟩
  | cons d ds ih =>
    obtain ⟨K, hK, hdrawn⟩ := (arena.theory.arguments_registered 0 d.1 L).toList
      Theory.enduring_registered hfree
    have hLK := hK.extends hfree
    have hcollect : ∀ c ∈ (arena.collect x d).1.candidates, arena.theory.Registered K c :=
      foldl_enter_candidates (fun c hc ↦ Theory.enduring_registered _ _ _ hLK (hx c hc)) hdrawn
    obtain ⟨M, hM, hresult⟩ := ih hcollect hK.free
    exact ⟨M, hK.trans hM, hresult⟩

theorem findAttackers_foundFor (arena : Arena) (a : Argument) {s : Supply}
    (hfree : ∀ id, s.freeArgument ≤ id → L id = none) :
    ∃ M, L.Continues s.freeArgument M (arena.findAttackers a s).2.freeArgument ∧
      arena.FoundFor M a (arena.findAttackers a s).1 := by
  obtain ⟨_, -, hentered⟩ := arena.findAttackers_entered a s
  obtain ⟨M, hM, hregistered⟩ := arena.foldl_collect_registered a.denials (x := (.none, s))
    (fun c hc ↦ by cases hc) hfree
  exact ⟨M, hM, hentered.attacks, hregistered⟩

end Arena

/-- No free number is registered, and what the session remembers under a number was found for the
argument that has it. -/
structure Session.Registered (arena : Arena) (L : Register Argument) (σ : Session) : Prop where
  free : ∀ id, σ.supply.freeArgument ≤ id → L id = none
  memory : ∀ id found, σ.proof.attackers.lookup id = some found →
    ∃ x, L id = some x ∧ arena.FoundFor L x found

namespace Session.Registered

theorem grow (h : σ.Registered arena L) {s : Supply}
    (hM : L.Continues σ.supply.freeArgument M s.freeArgument) :
    Session.Registered arena M { σ with supply := s } := by
  have hLM := hM.extends h.free
  refine ⟨hM.free, fun id found hlookup ↦ ?_⟩
  obtain ⟨x, hx, hfound⟩ := h.memory id found hlookup
  exact ⟨x, hLM id x hx, hfound.mono hLM⟩

theorem congr (h : σ.Registered arena L) (hproof : τ.proof.attackers = σ.proof.attackers)
    (hsupply : τ.supply = σ.supply) : τ.Registered arena L :=
  ⟨hsupply ▸ h.free, fun id found hfound ↦ h.memory id found (hproof ▸ hfound)⟩

end Session.Registered

namespace Search

variable {α β : Type}

theorem attackersOf_registered (hσ : σ.Registered arena L) (ha : arena.theory.Registered L a) :
    ∃ found τ M, attackersOf arena a σ = some (found.successful, τ) ∧ L ≤ M ∧
      τ.Registered arena M ∧ arena.FoundFor M a found := by
  cases hl : σ.proof.attackers.lookup a.id with
  | some found =>
    -- The number is this argument's alone, so what is remembered under it was found for it.
    obtain ⟨x, hx, hfound⟩ := hσ.memory _ found hl
    rw [ha.entered] at hx
    cases hx
    exact ⟨found, σ, L, attackersOf_known hl, L.le_refl, hσ, hfound⟩
  | none =>
    obtain ⟨M, hM, hnew⟩ := arena.findAttackers_foundFor a hσ.free
    have hLM := hM.extends hσ.free
    refine ⟨_, _, M, attackersOf_new hl, hLM, ⟨hM.free, fun id found hlookup ↦ ?_⟩, hnew⟩
    rw [looked_attackers, List.lookup_cons] at hlookup
    split at hlookup
    · rename_i heq
      cases hlookup
      rw [beq_iff_eq.mp heq]
      exact ⟨a, hLM _ _ ha.entered, hnew⟩
    · obtain ⟨x, hx, hfound⟩ := hσ.memory id found hlookup
      exact ⟨x, hLM id x hx, hfound.mono hLM⟩

def Registers (arena : Arena) (L : Register Argument) (m : Search α) : Prop :=
  ∀ M σ r τ, L ≤ M → σ.Registered arena M → m σ = some (r, τ) →
    ∃ N, M ≤ N ∧ τ.Registered arena N

namespace Registers

variable {m : Search α} {k : α → Search β}

theorem pure (r : α) : Registers arena L (pure r : Search α) := by
  intro M σ r' τ _ hσ hrun
  obtain ⟨-, rfl⟩ := pure_eq_some.mp hrun
  exact ⟨M, M.le_refl, hσ⟩

theorem bind (hm : Registers arena L m) (hk : ∀ r, Registers arena L (k r)) :
    Registers arena L (m >>= k) := by
  intro M σ r τ hLM hσ hrun
  obtain ⟨b, ρ, h₁, h₂⟩ := bind_eq_some.mp hrun
  obtain ⟨N, hMN, hρ⟩ := hm M σ b ρ hLM hσ h₁
  obtain ⟨K, hNK, hτ⟩ := hk b N ρ r τ (Register.le_trans hLM hMN) hρ h₂
  exact ⟨K, Register.le_trans hMN hNK, hτ⟩

theorem quiet {u : Search Unit} (hu : u.Quiet) : Registers arena L u := by
  intro M σ r τ _ hσ hrun
  obtain ⟨τ', hrun', hattackers, hsupply⟩ := hu σ
  rw [hrun] at hrun'
  cases hrun'
  exact ⟨M, M.le_refl, hσ.congr hattackers hsupply⟩

/-- What follows a search for the attackers of a registered argument may rely on them. -/
theorem attackersOf {k : List AttackerEntry → Search β} (ha : arena.theory.Registered L a)
    (hk : ∀ M es, L ≤ M → (∀ e ∈ es, arena.theory.Registered M e.attacker) →
      Registers arena M (k es)) :
    Registers arena L (attackersOf arena a >>= k) := by
  intro M σ r τ hLM hσ hrun
  obtain ⟨es, ρ, h₁, h₂⟩ := bind_eq_some.mp hrun
  obtain ⟨found, ρ', N, hrun', hMN, hρ, hfound⟩ :=
    attackersOf_registered hσ (Theory.enduring_registered _ _ _ hLM ha)
  rw [h₁] at hrun'
  cases hrun'
  obtain ⟨K, hNK, hτ⟩ := hk N _ (Register.le_trans hLM hMN) (fun e ↦ hfound.attacker) N ρ r τ
    N.le_refl hρ h₂
  exact ⟨K, Register.le_trans hMN hNK, hτ⟩

theorem conduct :
    Conduct arena (· ≤ ·) arena.theory.Registered (fun L _ ↦ Registers arena L) where
  known hLM ha := Theory.enduring_registered _ _ _ hLM ha
  pure _ _ := .pure
  bind := .bind
  outOfMoves _ _ _ _ _ _ _ _ hrun := by cases hrun
  quiet := .quiet
  attackersOf := .attackersOf

end Registers

end Search

namespace Session

variable {flows : List (Flow ArgumentList)} {drawn : List Argument}

/-- A registered session, of which everything that was drawn or may be drawn is registered too. -/
structure Traced (arena : Arena) (L : Register Argument) (σ : Session)
    (flows : List (Flow ArgumentList)) (drawn : List Argument) : Prop where
  session : σ.Registered arena L
  flows : ∀ f ∈ flows, f.Registers (Theory.ListOf arena.theory.Registered) L
  drawn : ∀ a ∈ drawn, arena.theory.Registered L a

theorem Traced.grow (h : σ.Traced arena L flows drawn) (hLM : L ≤ M) (hτ : τ.Registered arena M) :
    τ.Traced arena M flows drawn :=
  ⟨hτ, fun f hf ↦ (h.flows f hf).mono (Theory.enduring_listOf Theory.enduring_registered) hLM,
    fun a ha ↦ Theory.enduring_registered _ _ _ hLM (h.drawn a ha)⟩

theorem Traced.of_holdsNode (h : σ.Traced arena L flows drawn) (ha : σ.HoldsNode drawn a) :
    arena.theory.Registered L a := by
  obtain ⟨b, hb | ⟨id, found, hlookup, hb⟩, hnode⟩ := ha
  · exact (h.drawn b hb).node hnode
  · obtain ⟨x, -, hfound⟩ := h.session.memory id found hlookup
    exact (hfound.registered b hb).node hnode

theorem Reachable.traced (h : Reachable arena σ flows drawn) :
    ∃ L, σ.Traced arena L flows drawn := by
  induction h with
  | fresh s => exact ⟨.empty, ⟨fun _ _ ↦ rfl, fun id found h ↦ by cases h⟩, by simp, by simp⟩
  | ask m s es _ ih =>
    obtain ⟨L, hσ, hflows, hdrawn⟩ := ih
    refine ⟨L, hσ, List.forall_mem_cons.mpr ⟨?_, hflows⟩, hdrawn⟩
    exact arena.theory.listsUnder_registered m es s L
  | draw _ hf hnext ih =>
    obtain ⟨L, h⟩ := ih
    obtain ⟨M, hM, hgood⟩ := (h.flows _ hf).next h.session.free
    rw [hnext] at hM hgood
    obtain ⟨hl, hrest⟩ := hgood _ _ rfl
    have hgrown := h.grow (hM.extends h.session.free) (h.session.grow hM)
    exact ⟨M, hgrown.session, List.forall_mem_cons.mpr ⟨hrest, hgrown.flows⟩,
      List.forall_mem_append.mpr ⟨hl, hgrown.drawn⟩⟩
  | exhaust _ hf hnext ih =>
    obtain ⟨L, h⟩ := ih
    obtain ⟨M, hM, -⟩ := (h.flows _ hf).next h.session.free
    rw [hnext] at hM
    exact ⟨M, h.grow (hM.extends h.session.free) (h.session.grow hM)⟩
  | note _ hp ih =>
    obtain ⟨L, h⟩ := ih
    exact ⟨L, h.grow L.le_refl (h.session.congr hp rfl)⟩
  | look _ ha hrun ih =>
    obtain ⟨L, h⟩ := ih
    obtain ⟨_, _, M, hrun', hLM, hτ, -⟩ :=
      Search.attackersOf_registered h.session (h.of_holdsNode ha)
    rw [hrun] at hrun'
    cases hrun'
    exact ⟨M, h.grow hLM hτ⟩
  | @dispute σ τ _ _ a semantics moves outcome _ ha hrun ih =>
    obtain ⟨L, h⟩ := ih
    have hregisters : Search.Registers arena L (semantics.defend arena moves (.seeded a)) :=
      Semantics.defend_seeded Search.Registers.conduct semantics moves (h.of_holdsNode ha)
    obtain ⟨M, hLM, hτ⟩ := hregisters L σ outcome τ L.le_refl h.session hrun
    exact ⟨M, h.grow hLM hτ⟩

end Session

end Argumentation
