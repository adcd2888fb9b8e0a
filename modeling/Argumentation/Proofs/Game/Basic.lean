import Argumentation.Proofs.AttackGraph
import Mathlib.Data.Finset.Card

namespace Argumentation.Game

structure Board (α : Type) where
  pro : List α
  opp : List α

abbrev Result (α : Type) := Option (Option (Board α))

variable {α : Type}

namespace Board

def seeded (x : α) : Board α :=
  ⟨[x], []⟩

def exchange (b : Board α) (y z : α) : Board α :=
  ⟨b.pro ++ [z], b.opp ++ [y]⟩

def concede (b : Board α) (y : α) : Board α :=
  { b with opp := b.opp ++ [y] }

@[simp]
theorem exchange_pro (b : Board α) (y z : α) : (b.exchange y z).pro = b.pro ++ [z] := rfl

@[simp]
theorem exchange_opp (b : Board α) (y z : α) : (b.exchange y z).opp = b.opp ++ [y] := rfl

end Board

def Lists (attackers : α → List α) (y x : α) : Prop :=
  y ∈ attackers x

def unused [DecidableEq α] (U : Finset α) (l : List α) : Finset α :=
  U.filter (· ∉ l)

theorem card_unused_concat_lt [DecidableEq α] {U : Finset α} {l : List α} {z : α} (hz : z ∈ U)
    (hl : z ∉ l) : (unused U (l ++ [z])).card < (unused U l).card := by
  refine Finset.card_lt_card ⟨fun x hx ↦ ?_, fun h ↦ ?_⟩
  · simp only [unused, Finset.mem_filter, List.mem_append, not_or] at hx ⊢
    exact ⟨hx.1, hx.2.1⟩
  · have hmem := h (Finset.mem_filter.mpr ⟨hz, hl⟩)
    simp [unused] at hmem

theorem card_unused_le [DecidableEq α] {U : Finset α} {l m : List α} (h : l ⊆ m) :
    (unused U m).card ≤ (unused U l).card := by
  refine Finset.card_le_card fun x hx ↦ ?_
  simp only [unused, Finset.mem_filter] at hx ⊢
  exact ⟨hx.1, fun hxl ↦ hx.2 (h hxl)⟩

end Argumentation.Game
