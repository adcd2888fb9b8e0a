import Argumentation.Engine
import Argumentation.Proofs.Dialogue.Attackers
import Argumentation.Proofs.Dialogue.Memory

namespace Argumentation

/-- The sessions that queries for ground literals come to, with the flows that they can draw from
and the arguments that they have drawn. -/
inductive Session.Reached (arena : Arena) :
    Session → List (Flow ArgumentList) → List Argument → Prop
  | fresh (s : Supply) : Reached arena ⟨.empty, s⟩ [] []
  | ask {σ flows seeds} (m : Threshold) (es : List Term) : Reached arena σ flows seeds →
      (∀ e ∈ es, e.isLiteral = true ∧ e.isGround = true) →
      Reached arena σ (arena.theory.argumentLists m es :: flows) seeds
  | draw {σ flows seeds f l rest s} : Reached arena σ flows seeds → f ∈ flows →
      f.next σ.supply = (some (l, rest), s) →
      Reached arena { σ with supply := s } (rest :: flows) (l.arguments ++ seeds)
  | exhaust {σ flows seeds f s} : Reached arena σ flows seeds → f ∈ flows →
      f.next σ.supply = (none, s) → Reached arena { σ with supply := s } flows seeds
  | touch {σ flows seeds a} : Reached arena σ flows seeds → a ∈ seeds →
      Reached arena { σ with proof := σ.proof.record a } flows seeds
  | dispute {σ τ flows seeds a semantics moves outcome} : Reached arena σ flows seeds → a ∈ seeds →
      Semantics.defend semantics arena moves (.seeded a) σ = some (outcome, τ) →
      Reached arena τ flows seeds

def Degree.half : Degree :=
  ⟨0x3FE0000000000000, by decide, by decide⟩

def Degree.threeQuarters : Degree :=
  ⟨0x3FE8000000000000, by decide, by decide⟩

def Arena.ofAtoms (valuation : Valuation) (rules : List (String × List String × Degree)) : Arena :=
  let rules := rules.map fun (head, body, degree) ↦
    Rule.plain (.const head) (body.map .const) degree
  { theory := ⟨(Engine.default.addAll rules).2.store, valuation, Settings.default.maxDepth⟩
    restricted := false }

/-- The first argument for a literal and the session in which it is drawn. -/
def Session.first? (arena : Arena) (g : Term) : Option (Argument × Session) :=
  match (arena.theory.argumentLists 0 [g]).next ⟨1, 1⟩ with
  | (some (l, _), s) => l.arguments.head?.map (·, ⟨.empty, s⟩)
  | (none, _) => none

theorem Session.next_of_first? {arena : Arena} {g : Term} {a : Argument} {σ : Session}
    (h : first? arena g = some (a, σ)) : ∃ l rest s, a ∈ l.arguments ∧ σ = ⟨.empty, s⟩ ∧
      (arena.theory.argumentLists 0 [g]).next ⟨1, 1⟩ = (some (l, rest), s) := by
  unfold first? at h
  split at h
  · rename_i l rest s hnext
    obtain ⟨b, hb, hpair⟩ := Option.map_eq_some_iff.mp h
    cases hpair
    exact ⟨l, rest, s, List.mem_of_head? hb, rfl, hnext⟩
  · cases h

theorem Session.reached_of_first? {arena : Arena} {g : Term} {seed : Argument} {σ : Session}
    (h : first? arena g = some (seed, σ)) (hlit : g.isLiteral = true) (hg : g.isGround = true) :
    ∃ flows seeds, Reached arena σ flows seeds ∧ seed ∈ seeds := by
  obtain ⟨l, rest, s, hseed, rfl, hnext⟩ := next_of_first? h
  have hask : Reached arena ⟨.empty, ⟨1, 1⟩⟩ [arena.theory.argumentLists 0 [g]] [] :=
    .ask 0 [g] (.fresh _) (by simpa using ⟨hlit, hg⟩)
  exact ⟨_, _, hask.draw (.head _) hnext, List.mem_append_left _ hseed⟩

/-- The numbers of a session are those of the ledger, and the attackers that it remembers were found
for the arguments that have these numbers. -/
structure Session.Coherent (arena : Arena) (L : Ledger) (σ : Session) : Prop where
  next : L.next = σ.supply.freeArgument
  memory : ∀ id found, σ.proof.attackers.lookup id = some found → id < L.next ∧
    arena.Found L (L.argument id) found

namespace Session.Coherent

variable {arena : Arena} {L M : Ledger} {σ τ : Session}

theorem fresh (L : Ledger) {s : Supply} (h : L.next = s.freeArgument) :
    Coherent arena L ⟨.empty, s⟩ :=
  ⟨h, by simp [Proof.empty]⟩

theorem grow (h : Coherent arena L σ) (hLM : L ≤ M) {s : Supply} (hM : M.next = s.freeArgument) :
    Coherent arena M { σ with supply := s } := by
  refine ⟨hM, fun id found hlookup ↦ ?_⟩
  obtain ⟨hid, hfound⟩ := h.memory id found hlookup
  exact ⟨Nat.lt_of_lt_of_le hid hLM.1, hLM.2 id hid ▸ hfound.mono hLM⟩

theorem congr (h : Coherent arena L σ) (hproof : τ.proof.attackers = σ.proof.attackers)
    (hsupply : τ.supply = σ.supply) : Coherent arena L τ :=
  ⟨hsupply ▸ h.next, fun id found hfound ↦ h.memory id found (hproof ▸ hfound)⟩

end Session.Coherent

namespace Search

variable {arena : Arena} {L : Ledger} {σ : Session}

/-- What a coherent session finds or remembers for a known argument was found for it. -/
theorem attackersOf_coherent (hground : arena.theory.store.IsGround) (hσ : σ.Coherent arena L)
    {a : Argument} (ha : arena.Known L a) :
    ∃ found τ M, attackersOf arena a σ = some (found.successful, τ) ∧ L ≤ M ∧ τ.Coherent arena M ∧
      arena.Found M a found := by
  obtain ⟨⟨hid, hentry, -⟩, hmain⟩ := ha
  cases hl : σ.proof.attackers.lookup a.id with
  | some found =>
    obtain ⟨-, hfound⟩ := hσ.memory _ found hl
    exact ⟨found, σ, L, attackersOf_known hl, L.le_refl, hσ, hentry ▸ hfound⟩
  | none =>
    obtain ⟨M, hLM, hM, hnew⟩ := Arena.findAttackers_found hground hmain hσ.next
    refine ⟨_, _, M, attackersOf_new hl, hLM, ⟨hM, fun id found hlookup ↦ ?_⟩, hnew⟩
    rw [looked_attackers, List.lookup_cons] at hlookup
    split at hlookup
    · rename_i heq
      cases hlookup
      rw [beq_iff_eq.mp heq, hLM.2 _ hid, hentry]
      exact ⟨Nat.lt_of_lt_of_le hid hLM.1, hnew⟩
    · obtain ⟨hid', hfound⟩ := hσ.memory id found hlookup
      exact ⟨Nat.lt_of_lt_of_le hid' hLM.1, hLM.2 id hid' ▸ hfound.mono hLM⟩

end Search

/-- The attackers that a coherent session lists are those of the attack graph. -/
theorem Session.Coherent.attackers_eq {arena : Arena} {L : Ledger} {σ : Session}
    (hσ : σ.Coherent arena L) (hground : arena.theory.store.IsGround) {a : Argument}
    (ha : arena.Known L a) :
    ∃ found M, L ≤ M ∧ σ.attackers arena a = found.successful.map (·.attacker) ∧
      arena.KnownAttackers M found ∧ found.forms = arena.attackersOf a.form := by
  obtain ⟨found, τ, M, hrun, hLM, -, hfound⟩ := Search.attackersOf_coherent hground hσ ha
  exact ⟨found, M, hLM, by rw [attackers, hrun], hfound.forms hground ha.2⟩

end Argumentation
