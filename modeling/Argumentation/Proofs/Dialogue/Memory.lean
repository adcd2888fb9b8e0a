import Argumentation.Dialogue.Session

namespace Argumentation

namespace Search

variable {α β : Type} {σ τ : Session}

theorem bind_eq_some {x : Search α} {f : α → Search β} {b : β} :
    (x >>= f) σ = some (b, τ) ↔ ∃ a ρ, x σ = some (a, ρ) ∧ f a ρ = some (b, τ) := by
  change (x σ).bind (fun p ↦ f p.1 p.2) = some (b, τ) ↔ _
  simp only [Option.bind_eq_some_iff, Prod.exists]

theorem pure_eq_some {a b : α} : (pure a : Search α) σ = some (b, τ) ↔ a = b ∧ σ = τ := by
  change some (a, σ) = some (b, τ) ↔ _
  simp only [Option.some.injEq, Prod.mk.injEq]

end Search

namespace Session

/-- The attackers that a session lists for an argument, from memory or by a search of its own. -/
def attackers (arena : Arena) (σ : Session) (x : Argument) : List Argument :=
  match Search.attackersOf arena x σ with
  | some (entries, _) => entries.map (·.attacker)
  | none => []

def Attacks (arena : Arena) (σ : Session) (y x : Argument) : Prop :=
  y ∈ σ.attackers arena x

def Within (σ τ : Session) : Prop :=
  ∀ id found, σ.proof.attackers.lookup id = some found → τ.proof.attackers.lookup id = some found

variable {σ τ ρ : Session}

theorem Within.refl (σ : Session) : σ.Within σ :=
  fun _ _ h ↦ h

theorem Within.trans (h : σ.Within τ) (h' : τ.Within ρ) : σ.Within ρ :=
  fun id found hf ↦ h' id found (h id found hf)

end Session

namespace Search

variable {α β : Type} {arena : Arena} {σ τ : Session}

theorem attackersOf_known {a : Argument} {found : Attackers}
    (h : σ.proof.attackers.lookup a.id = some found) :
    attackersOf arena a σ = some (found.successful, σ) := by
  refine bind_eq_some.mpr ⟨σ, σ, rfl, ?_⟩
  rw [h]
  rfl

def looked (arena : Arena) (a : Argument) (σ : Session) : Session :=
  let (found, supply) := arena.findAttackers a σ.supply
  let recorded := found.successful.foldl (fun p e ↦ p.record e.attacker) σ.proof
  { proof := { recorded with attackers := (a.id, found) :: recorded.attackers }, supply }

theorem attackersOf_new {a : Argument} (h : σ.proof.attackers.lookup a.id = none) :
    attackersOf arena a σ =
      some ((arena.findAttackers a σ.supply).1.successful, looked arena a σ) := by
  refine bind_eq_some.mpr ⟨σ, σ, rfl, ?_⟩
  rw [h]
  rfl

theorem record_attackers (p : Proof) (a : Argument) : (p.record a).attackers = p.attackers := by
  unfold Proof.record
  generalize a.subtree = nodes
  induction nodes generalizing p with
  | nil => rfl
  | cons node nodes ih =>
    rw [List.foldl_cons, ih]
    split <;> rfl

theorem looked_attackers (a : Argument) :
    (looked arena a σ).proof.attackers =
      (a.id, (arena.findAttackers a σ.supply).1) :: σ.proof.attackers := by
  have hrecorded (entries : List AttackerEntry) (p : Proof) :
      (entries.foldl (fun p e ↦ p.record e.attacker) p).attackers = p.attackers := by
    induction entries generalizing p with
    | nil => rfl
    | cons e entries ih => rw [List.foldl_cons, ih, record_attackers]
  simp only [looked, hrecorded]

theorem lookup_looked_self (a : Argument) :
    (looked arena a σ).proof.attackers.lookup a.id =
      some (arena.findAttackers a σ.supply).1 := by
  rw [looked_attackers, List.lookup_cons_self]

theorem within_looked {a : Argument} (h : σ.proof.attackers.lookup a.id = none) :
    σ.Within (looked arena a σ) := by
  intro id found hf
  have hne : (id == a.id) = false := by
    rw [beq_eq_false_iff_ne]
    rintro rfl
    rw [h] at hf
    cases hf
  rw [looked_attackers, List.lookup_cons, hne]
  exact hf

theorem addDefender_attackers (p : Proof) (attacker defender : Argument) :
    (p.addDefender attacker defender).attackers = p.attackers := by
  simp only [Proof.addDefender]
  split <;> rfl

def Quiet (u : Search Unit) : Prop :=
  ∀ σ, ∃ τ, u σ = some ((), τ) ∧ τ.proof.attackers = σ.proof.attackers ∧ τ.supply = σ.supply

theorem setStatus_quiet (a : Argument) (status : Status) : (setStatus a status).Quiet :=
  fun _ ↦ ⟨_, rfl, rfl, rfl⟩

theorem addDefender_quiet (attacker defender : Argument) :
    (addDefender attacker defender).Quiet :=
  fun σ ↦ ⟨_, rfl, addDefender_attackers σ.proof attacker defender, rfl⟩

theorem record_quiet (a : Argument) : (updateProof (·.record a)).Quiet :=
  fun σ ↦ ⟨_, rfl, record_attackers σ.proof a, rfl⟩

def Grows (m : Search α) : Prop :=
  ∀ σ a τ, m σ = some (a, τ) → σ.Within τ

theorem Grows.pure (a : α) : Grows (pure a : Search α) := by
  intro σ b τ h
  rw [(pure_eq_some.mp h).2]
  exact .refl τ

theorem Grows.bind {x : Search α} {f : α → Search β} (hx : Grows x) (hf : ∀ a, Grows (f a)) :
    Grows (x >>= f) := by
  intro σ b τ h
  obtain ⟨a, ρ, h₁, h₂⟩ := bind_eq_some.mp h
  exact (hx σ a ρ h₁).trans (hf a ρ b τ h₂)

theorem Grows.outOfMoves : Grows (outOfMoves : Search α) := by
  intro σ a τ h
  cases h

theorem Grows.quiet {u : Search Unit} (hu : u.Quiet) : Grows u := by
  intro σ r τ h id found hf
  obtain ⟨τ', hrun, hattackers, -⟩ := hu σ
  rw [h] at hrun
  cases hrun
  rw [hattackers, hf]

theorem Grows.attackersOf (a : Argument) : Grows (attackersOf arena a) := by
  intro σ es τ h
  cases hl : σ.proof.attackers.lookup a.id with
  | some found =>
    rw [attackersOf_known hl] at h
    cases h
    exact .refl σ
  | none =>
    rw [attackersOf_new hl] at h
    cases h
    exact within_looked hl

/-- The attackers listed by a search are those that every later session lists. -/
theorem attackers_of_attackersOf {a : Argument} {es : List AttackerEntry} {ρ : Session}
    (h : Search.attackersOf arena a σ = some (es, τ)) (hρ : τ.Within ρ) :
    ρ.attackers arena a = es.map (·.attacker) := by
  have hknown : ∃ found, τ.proof.attackers.lookup a.id = some found ∧ found.successful = es := by
    cases hl : σ.proof.attackers.lookup a.id with
    | some found =>
      rw [attackersOf_known hl] at h
      cases h
      exact ⟨found, hl, rfl⟩
    | none =>
      rw [attackersOf_new hl] at h
      cases h
      exact ⟨_, lookup_looked_self a, rfl⟩
  obtain ⟨found, hl, rfl⟩ := hknown
  rw [Session.attackers, attackersOf_known (hρ _ _ hl)]

end Search

end Argumentation
