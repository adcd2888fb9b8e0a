import Argumentation.Dialogue.Preferred
import Argumentation.Proofs.Dialogue.Mirror
import Argumentation.Proofs.Game.Credulous

namespace Argumentation.Preferred

open scoped Classical
open Game.Credulous (Conflicts)

variable {arena : Arena} {defend others : Dispute → Search (Option Dispute)}
  {defend' others' : Game.Board Argument → Game.Result Argument}

theorem conflicts_iff (hground : arena.theory.store.IsGround) {L : Ledger} {d : Dispute}
    (hd : arena.KnownDispute L d) {a : Argument} (ha : arena.Known L a) :
    conflicts arena a d.pro = true ↔ Conflicts arena.attackersOf a.form d.board.pro := by
  simp only [conflicts, Conflicts, List.any_eq_true, Bool.or_eq_true, Dispute.board,
    List.mem_map, exists_exists_and_eq_and]
  refine exists_congr fun p ↦ and_congr_right fun hp ↦ ?_
  rw [ha.attacks_iff hground (hd.pro p hp), (hd.pro p hp).attacks_iff hground ha]

theorem firstDefence_mirrors (hground : arena.theory.store.IsGround)
    (hd : MirrorsAll arena defend defend') {L : Ledger} {σ : Session} (hσ : σ.Coherent arena L)
    (hothers : ∀ M τ b, L ≤ M → τ.Coherent arena M → arena.KnownDispute M b →
      Mirrors arena M τ (others b) (others' b.board))
    {d : Dispute} (hknown : arena.KnownDispute L d) {y : Argument} (hy : arena.Known L y)
    {es : List AttackerEntry} (hes : ∀ e ∈ es, arena.Known L e.attacker) :
    Mirrors arena L σ (firstDefence arena defend others d y es)
      (Game.Credulous.firstDefence arena.attackersOf defend' others' d.board y.form
        (es.map (·.attacker.form))) := by
  induction es generalizing L σ with
  | nil => exact .fail hσ
  | cons e es ih =>
    obtain ⟨he, hes⟩ := List.forall_mem_cons.mp hes
    have hrest (M : Ledger) (τ : Session) (hLM : L ≤ M) (hτ : τ.Coherent arena M) :=
      ih hτ (fun K ρ b hMK ↦ hothers K ρ b (Ledger.le_trans hLM hMK)) (hknown.mono hLM)
        (hy.mono hLM) fun e' he' ↦ (hes e' he').mono hLM
    have hskip : (d.oppContains e.attacker || conflicts arena e.attacker d.pro) = true ↔
        e.attacker.form ∈ d.board.opp ∨
          Conflicts arena.attackersOf e.attacker.form d.board.pro := by
      rw [Bool.or_eq_true, hknown.oppContains_iff hground he, conflicts_iff hground hknown he]
    simp only [firstDefence, Game.Credulous.firstDefence, List.map_cons, hskip]
    split
    · exact hrest L σ L.le_refl hσ
    · have hrun := hd L σ _ hσ (hknown.exchange hy he)
      rw [Dispute.board_exchange] at hrun
      refine hrun.bind (fun hnone ↦ by rw [hnone]) fun defended τ M hLM hτ hdefended hout ↦ ?_
      rw [hout]
      cases defended with
      | none => exact hrest M τ hLM hτ
      | some b =>
        refine (hothers M τ b hLM hτ (hdefended b rfl)).bind (fun hnone ↦ by simp [hnone]) ?_
        intro result τ' M' hM hτ' hresult hout'
        simp only [Option.map_some, hout']
        cases result with
        | none => exact hrest M' τ' (Ledger.le_trans hLM hM) hτ'
        | some r =>
          exact .quiet (Search.addDefender_quiet _ _) hτ' fun τ₁ hτ₁ ↦
            .quiet (Search.setStatus_quiet _ _) hτ₁ fun τ₂ hτ₂ ↦ .pure hτ₂ (hresult r rfl)

theorem answerAll_mirrors (hground : arena.theory.store.IsGround)
    (hd : MirrorsAll arena defend defend') {L : Ledger} {σ : Session} (hσ : σ.Coherent arena L)
    {d : Dispute} (hknown : arena.KnownDispute L d) {es : List AttackerEntry}
    (hes : ∀ e ∈ es, arena.Known L e.attacker) :
    Mirrors arena L σ (answerAll arena defend es d)
      (Game.Credulous.answerAll arena.attackersOf defend' (es.map (·.attacker.form)) d.board) := by
  induction es generalizing L σ d with
  | nil => exact .pure hσ hknown
  | cons e es ih =>
    obtain ⟨he, hes⟩ := List.forall_mem_cons.mp hes
    simp only [answerAll, Game.Credulous.answerAll, List.map_cons,
      hknown.oppContains_iff hground he, hknown.proContains_iff hground he]
    split
    · exact ih hσ hknown hes
    split
    · exact .fail hσ
    have hfree : (∃ p ∈ d.board.pro, p ∈ arena.attackersOf e.attacker.form) ↔
        ∃ p ∈ d.pro, p.attacks arena.restricted e.attacker = true := by
      simp only [Dispute.board, List.mem_map, exists_exists_and_eq_and]
      exact exists_congr fun p ↦ and_congr_right fun hp ↦
        ((hknown.pro p hp).attacks_iff hground he).symm
    cases hfind : d.pro.find? (·.attacks arena.restricted e.attacker) with
    | some p =>
      have hp : p.attacks arena.restricted e.attacker = true := by
        simpa using List.find?_some hfind
      rw [if_pos (hfree.mpr ⟨p, List.mem_of_find?_eq_some hfind, hp⟩)]
      refine .quiet (Search.addDefender_quiet _ _) hσ fun τ hτ ↦
        .quiet (Search.setStatus_quiet _ _) hτ fun τ' hτ' ↦ ?_
      rw [← Dispute.board_concede]
      exact ih hτ' (hknown.concede he) hes
    | none =>
      rw [if_neg (mt hfree.mp (by simpa using hfind))]
      refine .attackersOf hground hσ he fun found τ M hLM hτ hfound hforms ↦ ?_
      rw [← hforms]
      refine firstDefence_mirrors hground hd hτ (fun K ρ b hMK hρ hb ↦ ?_) (hknown.mono hLM)
        (he.mono hLM) hfound
      exact ih hρ hb fun e' he' ↦ (hes e' he').mono (Ledger.le_trans hLM hMK)

theorem defend_mirrors (hground : arena.theory.store.IsGround) (moves : Nat) :
    MirrorsAll arena (Preferred.defend arena moves)
      (Game.Credulous.defend arena.attackersOf moves) := by
  induction moves with
  | zero => exact fun L σ d hσ hknown ↦ rfl
  | succ moves ih =>
    intro L σ d hσ hknown
    have hlast : d.board.pro.getLast? = d.pro.getLast?.map Argument.form :=
      List.getLast?_map
    rw [Preferred.defend, Game.Credulous.defend, hlast]
    cases hl : d.pro.getLast? with
    | none => exact .fail hσ
    | some a =>
      have ha := hknown.pro a (List.mem_of_getLast? hl)
      refine .attackersOf hground hσ ha fun found τ M hLM hτ hfound hforms ↦ ?_
      have hall := answerAll_mirrors hground ih hτ (hknown.mono hLM) hfound
      simp only [Option.map_some, ← hforms]
      exact hall.settled a

end Argumentation.Preferred
