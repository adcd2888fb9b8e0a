import Argumentation.Dialogue.Grounded
import Argumentation.Proofs.Dialogue.Mirror
import Argumentation.Proofs.Game.Sceptical

namespace Argumentation.Grounded

open scoped Classical

variable {arena : Arena} {defend : Dispute → Search (Option Dispute)}
  {defend' : Game.Board Argument → Game.Result Argument}

theorem firstDefence_mirrors (hground : arena.theory.store.IsGround)
    (hd : MirrorsAll arena defend defend') {L : Ledger} {σ : Session} (hσ : σ.Coherent arena L)
    {d : Dispute} (hknown : arena.KnownDispute L d) {y : Argument} (hy : arena.Known L y)
    {es : List AttackerEntry} (hes : ∀ e ∈ es, arena.Known L e.attacker) :
    Mirrors arena L σ (firstDefence arena defend d y es)
      (Game.Sceptical.firstDefence arena.attackersOf defend' d.board y.form
        (es.map (·.attacker.form))) := by
  induction es generalizing L σ with
  | nil => exact .fail hσ
  | cons e es ih =>
    obtain ⟨he, hes⟩ := List.forall_mem_cons.mp hes
    have hskip : (d.proContains e.attacker || y.attacks arena.restricted e.attacker) = true ↔
        e.attacker.form ∈ d.board.pro ∨ y.form ∈ arena.attackersOf e.attacker.form := by
      rw [Bool.or_eq_true, hknown.proContains_iff hground he, hy.attacks_iff hground he]
    simp only [firstDefence, Game.Sceptical.firstDefence, List.map_cons, hskip]
    split
    · exact ih hσ hknown hy hes
    · have hrun := hd L σ _ hσ (hknown.exchange hy he)
      rw [Dispute.board_exchange] at hrun
      refine hrun.bind (fun hnone ↦ by rw [hnone]) fun result τ M hLM hτ hresult hout ↦ ?_
      rw [hout]
      cases result with
      | none => exact ih hτ (hknown.mono hLM) (hy.mono hLM) fun e' he' ↦ (hes e' he').mono hLM
      | some r =>
        exact .quiet (Search.addDefender_quiet _ _) hτ fun τ' hτ' ↦ .pure hτ' (hresult r rfl)

theorem answerAll_mirrors (hground : arena.theory.store.IsGround)
    (hd : MirrorsAll arena defend defend') {L : Ledger} {σ : Session} (hσ : σ.Coherent arena L)
    {d : Dispute} (hknown : arena.KnownDispute L d) {es : List AttackerEntry}
    (hes : ∀ e ∈ es, arena.Known L e.attacker) :
    Mirrors arena L σ (answerAll arena defend es d)
      (Game.Sceptical.answerAll arena.attackersOf defend' (es.map (·.attacker.form)) d.board) := by
  induction es generalizing L σ d with
  | nil => exact .pure hσ hknown
  | cons e es ih =>
    obtain ⟨he, hes⟩ := List.forall_mem_cons.mp hes
    simp only [answerAll, Game.Sceptical.answerAll, List.map_cons]
    refine .attackersOf hground hσ he fun found τ M hLM hτ hfound hforms ↦ ?_
    have hfirst := firstDefence_mirrors hground hd hτ (hknown.mono hLM) (he.mono hLM) hfound
    rw [← hforms]
    refine Mirrors.bind hfirst (fun hnone ↦ by rw [Attackers.forms, hnone]) ?_
    intro result τ' M' hM hτ' hresult hout
    rw [Attackers.forms, hout]
    cases result with
    | none => exact .fail hτ'
    | some r =>
      refine .quiet (Search.setStatus_quiet _ _) hτ' fun τ'' hτ'' ↦ ih hτ'' (hresult r rfl) ?_
      exact fun e' he' ↦ (hes e' he').mono (Ledger.le_trans hLM hM)

theorem defend_mirrors (hground : arena.theory.store.IsGround) (moves : Nat) :
    MirrorsAll arena (Grounded.defend arena moves)
      (Game.Sceptical.defend arena.attackersOf moves) := by
  induction moves with
  | zero => exact fun L σ d hσ hknown ↦ rfl
  | succ moves ih =>
    intro L σ d hσ hknown
    have hlast : d.board.pro.getLast? = d.pro.getLast?.map Argument.form :=
      List.getLast?_map
    rw [Grounded.defend, Game.Sceptical.defend, hlast]
    cases hl : d.pro.getLast? with
    | none => exact .fail hσ
    | some a =>
      have ha := hknown.pro a (List.mem_of_getLast? hl)
      refine .attackersOf hground hσ ha fun found τ M hLM hτ hfound hforms ↦ ?_
      have hall := answerAll_mirrors hground ih hτ (hknown.mono hLM) hfound
      simp only [Option.map_some, ← hforms]
      exact hall.settled a

end Argumentation.Grounded
