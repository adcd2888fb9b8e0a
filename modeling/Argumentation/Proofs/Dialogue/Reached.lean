import Argumentation.Proofs.Grounded.Board
import Argumentation.Proofs.Preferred.Board

namespace Argumentation

namespace Arena

variable {arena : Arena}

theorem forms_subset_mains (hground : arena.theory.store.IsGround) {m : Threshold} {es : List Term}
    (hes : ∀ e ∈ es, e.isLiteral = true ∧ e.isGround = true) :
    ∀ as ∈ arena.theory.listForms m es, ∀ a ∈ as, a ∈ arena.mains := by
  intro as has a ha
  obtain ⟨e, he, hmem⟩ := Theory.exists_of_mem_choices has a ha
  exact mem_mains_of_mem_forms hground (Substitution.apply_isLiteral _ (hes e he).1)
    (Theory.forms_threshold hmem)

open scoped Classical in
theorem mains_closed (hground : arena.theory.store.IsGround) :
    ∀ x ∈ arena.mains.toFinset, ∀ y ∈ arena.attackersOf x, y ∈ arena.mains.toFinset :=
  fun _ _ _ hy ↦ List.mem_toFinset.mpr (attackersOf_subset_mains hground hy)

def KnownFlow (arena : Arena) (L : Ledger) (f : Flow ArgumentList) : Prop :=
  ∃ forms, f.Shows ArgumentList.Numbered (·.arguments.map Argument.form) L forms ∧
    ∀ as ∈ forms, ∀ a ∈ as, a ∈ arena.mains

theorem KnownFlow.mono {L M : Ledger} {f : Flow ArgumentList} (h : arena.KnownFlow L f)
    (hLM : L ≤ M) : arena.KnownFlow M f := by
  obtain ⟨forms, hshows, hmains⟩ := h
  exact ⟨forms, hshows.mono ArgumentList.numbered_stable hLM, hmains⟩

end Arena

theorem Semantics.defend_mirrors {arena : Arena} (hground : arena.theory.store.IsGround)
    (semantics : Semantics) (moves : Nat) :
    ∃ defend', MirrorsAll arena (semantics.defend arena moves) defend' := by
  cases semantics with
  | grounded => exact ⟨_, Grounded.defend_mirrors hground moves⟩
  | preferredCredulous => exact ⟨_, Preferred.defend_mirrors hground moves⟩

namespace Session

structure Known (arena : Arena) (L : Ledger) (σ : Session) (flows : List (Flow ArgumentList))
    (seeds : List Argument) : Prop where
  coherent : σ.Coherent arena L
  flows : ∀ f ∈ flows, arena.KnownFlow L f
  seeds : ∀ a ∈ seeds, arena.Known L a

variable {arena : Arena} {σ : Session} {flows : List (Flow ArgumentList)} {seeds : List Argument}

theorem Known.grow {L M : Ledger} {τ : Session} (h : σ.Known arena L flows seeds) (hLM : L ≤ M)
    (hτ : τ.Coherent arena M) : τ.Known arena M flows seeds :=
  ⟨hτ, fun f hf ↦ (h.flows f hf).mono hLM, fun a ha ↦ (h.seeds a ha).mono hLM⟩

/-- An argument at hand: one that was drawn, or one that was built in looking for attackers. -/
def Holds (σ : Session) (drawn : List Argument) (a : Argument) : Prop :=
  a ∈ drawn ∨ ∃ id found, σ.proof.attackers.lookup id = some found ∧ a ∈ found.candidates

/-- The sessions in which, besides queries and disputes, the attackers of arguments at hand are
looked for and what is noted about arguments is changed. -/
inductive Explored (arena : Arena) : Session → List (Flow ArgumentList) → List Argument → Prop
  | fresh (s : Supply) : Explored arena ⟨.empty, s⟩ [] []
  | ask {σ flows drawn} (m : Threshold) (es : List Term) : Explored arena σ flows drawn →
      (∀ e ∈ es, e.isLiteral = true ∧ e.isGround = true) →
      Explored arena σ (arena.theory.argumentLists m es :: flows) drawn
  | draw {σ flows drawn f l rest s} : Explored arena σ flows drawn → f ∈ flows →
      f.next σ.supply = (some (l, rest), s) →
      Explored arena { σ with supply := s } (rest :: flows) (l.arguments ++ drawn)
  | exhaust {σ flows drawn f s} : Explored arena σ flows drawn → f ∈ flows →
      f.next σ.supply = (none, s) → Explored arena { σ with supply := s } flows drawn
  | note {σ flows drawn p} : Explored arena σ flows drawn →
      p.attackers = σ.proof.attackers → Explored arena { σ with proof := p } flows drawn
  | look {σ τ flows drawn a entries} : Explored arena σ flows drawn → σ.Holds drawn a →
      Search.attackersOf arena a σ = some (entries, τ) → Explored arena τ flows drawn
  | dispute {σ τ flows drawn a semantics moves outcome} : Explored arena σ flows drawn →
      σ.Holds drawn a →
      Semantics.defend semantics arena moves (.seeded a) σ = some (outcome, τ) →
      Explored arena τ flows drawn

theorem Reached.explored (h : Reached arena σ flows seeds) : Explored arena σ flows seeds := by
  induction h with
  | fresh s => exact .fresh s
  | ask m es _ hes ih => exact ih.ask m es hes
  | draw _ hf hnext ih => exact ih.draw hf hnext
  | exhaust _ hf hnext ih => exact ih.exhaust hf hnext
  | touch _ _ ih => exact ih.note (Search.record_attackers _ _)
  | dispute _ ha hrun ih => exact ih.dispute (.inl ha) hrun

theorem Known.of_holds {L : Ledger} (h : σ.Known arena L flows seeds) {a : Argument}
    (ha : σ.Holds seeds a) : arena.Known L a := by
  rcases ha with ha | ⟨id, found, hlookup, ha⟩
  · exact h.seeds a ha
  · exact (h.coherent.memory id found hlookup).2.known ha

theorem Explored.known (hground : arena.theory.store.IsGround) (h : Explored arena σ flows seeds) :
    ∃ L, σ.Known arena L flows seeds := by
  induction h with
  | fresh s =>
    let L : Ledger := ⟨fun _ ↦ ⟨0, .plain (.num (.int 0)) [] .one, .empty, [], .one, 0⟩,
      s.freeArgument⟩
    exact ⟨L, .fresh L rfl, by simp, by simp⟩
  | ask m es _ hes ih =>
    obtain ⟨L, hσ, hflows, hseeds⟩ := ih
    refine ⟨L, hσ, List.forall_mem_cons.mpr ⟨?_, hflows⟩, hseeds⟩
    exact ⟨_, Theory.argumentLists_shows hground m hes L, Arena.forms_subset_mains hground hes⟩
  | draw _ hf hnext ih =>
    obtain ⟨L, h⟩ := ih
    obtain ⟨forms, hshows, hmains⟩ := h.flows _ hf
    obtain ⟨M, hLM, hM, hdrawn⟩ := hshows.next h.coherent.next
    rw [hnext] at hM hdrawn
    obtain ⟨forms', rfl, hl, hrest⟩ := hdrawn _ _ rfl
    obtain ⟨hmain, hmains⟩ := List.forall_mem_cons.mp hmains
    obtain ⟨hσ, hflows, hseeds⟩ := h.grow hLM (h.coherent.grow hLM hM)
    refine ⟨M, hσ, List.forall_mem_cons.mpr ⟨⟨forms', hrest, hmains⟩, hflows⟩, fun a ha ↦ ?_⟩
    rcases List.mem_append.mp ha with ha | ha
    · exact ⟨hl.2 a ha, hmain _ (List.mem_map_of_mem ha)⟩
    · exact hseeds a ha
  | exhaust _ hf hnext ih =>
    obtain ⟨L, h⟩ := ih
    obtain ⟨forms, hshows, -⟩ := h.flows _ hf
    obtain ⟨M, hLM, hM, -⟩ := hshows.next h.coherent.next
    rw [hnext] at hM
    exact ⟨M, h.grow hLM (h.coherent.grow hLM hM)⟩
  | note _ hp ih =>
    obtain ⟨L, h⟩ := ih
    exact ⟨L, h.grow L.le_refl (h.coherent.congr hp rfl)⟩
  | look _ ha hrun ih =>
    obtain ⟨L, h⟩ := ih
    obtain ⟨_, _, M, hrun', hLM, hτ, -⟩ :=
      Search.attackersOf_coherent hground h.coherent (h.of_holds ha)
    rw [hrun] at hrun'
    cases hrun'
    exact ⟨M, h.grow hLM hτ⟩
  | @dispute _ _ _ _ a semantics moves _ _ ha hrun ih =>
    obtain ⟨L, h⟩ := ih
    obtain ⟨defend', hmirrors⟩ := semantics.defend_mirrors hground moves
    have hmirror := hmirrors L _ _ h.coherent (.seeded (h.of_holds ha))
    obtain ⟨M, hLM, hτ, -⟩ := hmirror.of_eq_some hrun
    exact ⟨M, h.grow hLM hτ⟩

theorem Reached.known (hground : arena.theory.store.IsGround) (h : Reached arena σ flows seeds) :
    ∃ L, σ.Known arena L flows seeds :=
  h.explored.known hground

end Session

end Argumentation
