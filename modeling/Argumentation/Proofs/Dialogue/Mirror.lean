import Argumentation.Proofs.Dialogue.Coherence
import Argumentation.Proofs.Game.Basic

namespace Argumentation

open Game (Board Result)

def Dispute.board (d : Dispute) : Board Argument :=
  ⟨d.pro.map Argument.form, d.opp.map Argument.form⟩

@[simp]
theorem Dispute.board_exchange (d : Dispute) (a b : Argument) :
    (d.exchange a b).board = d.board.exchange a.form b.form := by
  simp only [board, exchange, Board.exchange, List.map_append, List.map_cons, List.map_nil]

@[simp]
theorem Dispute.board_concede (d : Dispute) (a : Argument) :
    (d.concede a).board = d.board.concede a.form := by
  simp only [board, concede, Board.concede, List.map_append, List.map_cons, List.map_nil]

structure Arena.KnownDispute (arena : Arena) (L : Ledger) (d : Dispute) : Prop where
  pro : ∀ a ∈ d.pro, arena.Known L a
  opp : ∀ a ∈ d.opp, arena.Known L a

namespace Arena.KnownDispute

variable {arena : Arena} {L M : Ledger} {d : Dispute} {a b : Argument}

theorem seeded (ha : arena.Known L a) : arena.KnownDispute L (.seeded a) :=
  ⟨fun b hb ↦ by rw [List.mem_singleton.mp hb]; exact ha, fun b hb ↦ by cases hb⟩

theorem mono (h : arena.KnownDispute L d) (hLM : L ≤ M) : arena.KnownDispute M d :=
  ⟨fun a ha ↦ (h.pro a ha).mono hLM, fun a ha ↦ (h.opp a ha).mono hLM⟩

theorem concede (h : arena.KnownDispute L d) (ha : arena.Known L a) :
    arena.KnownDispute L (d.concede a) := by
  refine ⟨h.pro, fun c hc ↦ ?_⟩
  rcases List.mem_append.mp hc with hc | hc
  · exact h.opp c hc
  · exact List.mem_singleton.mp hc ▸ ha

theorem exchange (h : arena.KnownDispute L d) (ha : arena.Known L a) (hb : arena.Known L b) :
    arena.KnownDispute L (d.exchange a b) := by
  refine ⟨fun c hc ↦ ?_, (h.concede ha).opp⟩
  rcases List.mem_append.mp hc with hc | hc
  · exact h.pro c hc
  · exact List.mem_singleton.mp hc ▸ hb

theorem any_isSimilar_iff (hground : arena.theory.store.IsGround) {l : List Argument}
    (hl : ∀ b ∈ l, arena.Known L b) (ha : arena.Known L a) :
    (l.any (·.isSimilar a)) = true ↔ a.form ∈ l.map Argument.form := by
  simp only [List.any_eq_true, List.mem_map]
  exact exists_congr fun b ↦ and_congr_right fun hb ↦
    Arena.Known.isSimilar_iff hground (hl b hb) ha

theorem proContains_iff (hground : arena.theory.store.IsGround) (h : arena.KnownDispute L d)
    (ha : arena.Known L a) : d.proContains a = true ↔ a.form ∈ d.board.pro :=
  any_isSimilar_iff hground h.pro ha

theorem oppContains_iff (hground : arena.theory.store.IsGround) (h : arena.KnownDispute L d)
    (ha : arena.Known L a) : d.oppContains a = true ↔ a.form ∈ d.board.opp :=
  any_isSimilar_iff hground h.opp ha

end Arena.KnownDispute

theorem Arena.Known.attacks_iff {arena : Arena} (hground : arena.theory.store.IsGround) {L : Ledger}
    {a b : Argument} (ha : arena.Known L a) (hb : arena.Known L b) :
    a.attacks arena.restricted b = true ↔ a.form ∈ arena.attackersOf b.form := by
  rw [← Argument.attacks_form]
  exact attacks_iff_of_mem_mains hground ha.2 hb.2

/-- From a coherent session the search has the given outcome on the board, and the session that it
leaves is coherent again. -/
def Mirrors (arena : Arena) (L : Ledger) (σ : Session) (m : Search (Option Dispute)) :
    Result Argument → Prop
  | none => m σ = none
  | some r => ∃ d τ M, m σ = some (d, τ) ∧ L ≤ M ∧ τ.Coherent arena M ∧
      (∀ d', d = some d' → arena.KnownDispute M d') ∧ d.map Dispute.board = r

def MirrorsAll (arena : Arena) (defend : Dispute → Search (Option Dispute))
    (defend' : Board Argument → Result Argument) : Prop :=
  ∀ L σ d, σ.Coherent arena L → arena.KnownDispute L d →
    Mirrors arena L σ (defend d) (defend' d.board)

namespace Mirrors

variable {arena : Arena} {L : Ledger} {σ : Session} {m : Search (Option Dispute)}
  {o o' : Result Argument}

theorem pure (hσ : σ.Coherent arena L) {d : Dispute} (hd : arena.KnownDispute L d) :
    Mirrors arena L σ (pure (some d)) (some (some d.board)) :=
  ⟨some d, σ, L, rfl, L.le_refl, hσ, by rintro _ ⟨⟩; exact hd, rfl⟩

theorem fail (hσ : σ.Coherent arena L) : Mirrors arena L σ (Pure.pure none) (some none) :=
  ⟨none, σ, L, rfl, L.le_refl, hσ, by simp, rfl⟩

theorem of_eq_some (h : Mirrors arena L σ m o) {d : Option Dispute} {τ : Session}
    (hm : m σ = some (d, τ)) : ∃ M, L ≤ M ∧ τ.Coherent arena M ∧
      (∀ d', d = some d' → arena.KnownDispute M d') ∧ o = some (d.map Dispute.board) := by
  cases o with
  | none =>
    rw [show m σ = none from h] at hm
    cases hm
  | some r =>
    obtain ⟨d', τ', M, hm', hLM, hτ, hd, rfl⟩ := h
    rw [hm'] at hm
    cases hm
    exact ⟨M, hLM, hτ, hd, rfl⟩

theorem exists_of_eq_some {r : Board Argument} (h : Mirrors arena L σ m o)
    (ho : o = some (some r)) : ∃ d τ, m σ = some (some d, τ) := by
  subst ho
  obtain ⟨d, τ, -, hm, -, -, -, hd⟩ := h
  obtain ⟨d, rfl, -⟩ := Option.map_eq_some_iff.mp hd
  exact ⟨d, τ, hm⟩

theorem exists_of_ne_none (h : Mirrors arena L σ m o) (ho : o ≠ none) : ∃ r, m σ = some r := by
  cases o with
  | none => exact absurd rfl ho
  | some r =>
    obtain ⟨d, τ, -, hm, -⟩ := h
    exact ⟨_, hm⟩

theorem mono {K : Ledger} (hKL : K ≤ L) (h : Mirrors arena L σ m o) : Mirrors arena K σ m o := by
  cases o with
  | none => exact h
  | some r =>
    obtain ⟨d, τ, M, hm, hLM, h⟩ := h
    exact ⟨d, τ, M, hm, Ledger.le_trans hKL hLM, h⟩

theorem of_run_eq {m' : Search (Option Dispute)} {τ : Session} (h : Mirrors arena L τ m' o)
    (hrun : m σ = m' τ) : Mirrors arena L σ m o := by
  cases o with
  | none => exact hrun.trans h
  | some r =>
    obtain ⟨d, τ', M, hm', h⟩ := h
    exact ⟨d, τ', M, hrun.trans hm', h⟩

theorem bind {k : Option Dispute → Search (Option Dispute)} (h : Mirrors arena L σ m o)
    (hnone : o = none → o' = none)
    (hk : ∀ d τ M, L ≤ M → τ.Coherent arena M → (∀ d', d = some d' → arena.KnownDispute M d') →
      o = some (d.map Dispute.board) → Mirrors arena M τ (k d) o') :
    Mirrors arena L σ (m >>= k) o' := by
  cases o with
  | none =>
    rw [hnone rfl]
    change (m σ).bind _ = none
    rw [show m σ = none from h]
    rfl
  | some r =>
    obtain ⟨d, τ, M, hm, hLM, hτ, hd, rfl⟩ := h
    have hbind : (m >>= k) σ = k d τ := by
      change (m σ).bind _ = _
      rw [hm]
      rfl
    exact ((hk d τ M hLM hτ hd rfl).mono hLM).of_run_eq hbind

theorem quiet {u : Search Unit} {k : Search (Option Dispute)} (hu : u.Quiet)
    (hσ : σ.Coherent arena L) (hk : ∀ τ, τ.Coherent arena L → Mirrors arena L τ k o) :
    Mirrors arena L σ (u >>= fun _ ↦ k) o := by
  obtain ⟨τ, hτ, hproof, hsupply⟩ := hu σ
  have hbind : (u >>= fun _ ↦ k) σ = k τ := by
    change (u σ).bind _ = _
    rw [hτ]
    rfl
  exact (hk τ (hσ.congr hproof hsupply)).of_run_eq hbind

theorem settled (h : Mirrors arena L σ m o) (a : Argument) :
    Mirrors arena L σ (do
      let result ← m
      Search.setStatus a (if result.isSome then .undefeated else .defeated)
      return result) o := by
  refine h.bind id fun result τ M hLM hτ hresult hout ↦ ?_
  rw [hout]
  refine .quiet (Search.setStatus_quiet _ _) hτ fun τ' hτ' ↦ ?_
  cases result with
  | none => exact .fail hτ'
  | some r => exact .pure hτ' (hresult r rfl)

theorem attackersOf (hground : arena.theory.store.IsGround) (hσ : σ.Coherent arena L) {a : Argument}
    (ha : arena.Known L a) {k : List AttackerEntry → Search (Option Dispute)}
    (hk : ∀ found τ M, L ≤ M → τ.Coherent arena M → arena.KnownAttackers M found →
      found.forms = arena.attackersOf a.form → Mirrors arena M τ (k found.successful) o) :
    Mirrors arena L σ (Search.attackersOf arena a >>= k) o := by
  obtain ⟨found, τ, M, hrun, hLM, hτ, hfound⟩ := Search.attackersOf_coherent hground hσ ha
  obtain ⟨hknown, hforms⟩ := hfound.forms hground ha.2
  have hbind : (Search.attackersOf arena a >>= k) σ = k found.successful τ := by
    change (Search.attackersOf arena a σ).bind _ = _
    rw [hrun]
    rfl
  exact ((hk found τ M hLM hτ hknown hforms).mono hLM).of_run_eq hbind

end Mirrors

end Argumentation
