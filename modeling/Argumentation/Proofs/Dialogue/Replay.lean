import Argumentation.Proofs.Dialogue.Memory
import Mathlib.Order.Defs.Unbundled

namespace Argumentation.Search

variable {α β : Type}

/-- The search leads to a later session. Repeated from any session after that, it has the same
outcome, and nothing is said then that was not said before. -/
structure Replays (Le : Session → Session → Prop) (m : Search α) (σ : Session) (r : α)
    (τ : Session) : Prop where
  later : Le σ τ
  repeated : ∀ ρ, Le τ ρ → ∃ ρ', m ρ = some (r, ρ') ∧ Le ρ ρ' ∧ Le ρ' ρ

namespace Replays

variable {Le : Session → Session → Prop} [IsPreorder Session Le] {σ τ ρ : Session}

theorem pure (r : α) : Replays Le (pure r) σ r σ :=
  ⟨refl_of Le σ, fun ρ _ ↦ ⟨ρ, rfl, refl_of Le ρ, refl_of Le ρ⟩⟩

theorem mono {m : Search α} {r : α} (h : Replays Le m σ r τ) (hle : Le τ ρ) : Replays Le m σ r ρ :=
  ⟨trans_of Le h.later hle, fun υ hυ ↦ h.repeated υ (trans_of Le hle hυ)⟩

theorem bind {m : Search α} {k : α → Search β} {r : α} {r' : β} (hm : Replays Le m σ r ρ)
    (hk : Replays Le (k r) ρ r' τ) : Replays Le (m >>= k) σ r' τ := by
  refine ⟨trans_of Le hm.later hk.later, fun υ hυ ↦ ?_⟩
  obtain ⟨υ', hrun, hle, hge⟩ := hm.repeated υ (trans_of Le hk.later hυ)
  obtain ⟨υ'', hrun', hle', hge'⟩ := hk.repeated υ' (trans_of Le hυ hle)
  exact ⟨υ'', bind_eq_some.mpr ⟨r, υ', hrun, hrun'⟩, trans_of Le hle hle', trans_of Le hge' hge⟩

end Replays

end Argumentation.Search
