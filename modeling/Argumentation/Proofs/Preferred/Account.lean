import Argumentation.Proofs.Dialogue.Casting
import Argumentation.Proofs.Dialogue.Coherence

namespace Argumentation

/-- The attacker is recorded as defeated by defenders that attack it. -/
structure Proof.Accounts (p : Proof) (restricted : Bool) (y : Argument) : Prop where
  defeated : p.status y = .defeated
  defended : p.defendersFrom y ≠ []
  attacks : ∀ z ∈ p.defendersFrom y, z.attacks restricted y = true

namespace Stage.Sound

variable {arena : Arena} {S : Stage} {y : Argument}

theorem defendersFrom_attack (hS : S.Sound arena) (hy : S.Has .opp y) :
    ∀ z ∈ S.proof.defendersFrom y, z.attacks arena.restricted y = true := by
  intro z hz
  cases hl : S.proof.defenders.lookup y.id with
  | none =>
    rw [Proof.defendersFrom, hl] at hz
    cases hz
  | some zs =>
    rw [Proof.defendersFrom, hl] at hz
    exact ((hS.defenders_of_opp hy hl).2 z hz).2

theorem accounts (hS : S.Sound arena) (hy : S.Has .opp y)
    (hstatus : (S.proof.statuses.lookup y.id).isSome) :
    S.proof.Accounts arena.restricted y := by
  obtain ⟨status, hlookup⟩ := Option.isSome_iff_exists.mp hstatus
  obtain ⟨rfl, hdefenders⟩ := hS.status_of_opp hy hlookup
  obtain ⟨zs, hzs⟩ := Option.isSome_iff_exists.mp hdefenders
  refine ⟨?_, ?_, hS.defendersFrom_attack hy⟩
  · rw [Proof.status, hlookup, Option.getD_some]
  · rw [Proof.defendersFrom, hzs, Option.getD_some]
    exact (hS.defenders_of_opp hy hzs).1

end Stage.Sound

namespace Preferred

/-- If the argument is accepted, its attackers are known, and each one is similar to an attacker
that is answered. -/
def Explained (S : Stage) (a : Argument) (accepted : Bool) : Prop :=
  accepted = true → ∃ found, S.proof.attackers.lookup a.id = some found ∧
    ∀ e ∈ found.successful, ∃ y, S.Has .opp y ∧ y.isSimilar e.attacker = true ∧ Answered S.proof y

theorem Explained.mono {S T : Stage} {a : Argument} {b : Bool} (hST : S.Follows T)
    (h : Explained S a b) : Explained T a b := by
  intro hb
  obtain ⟨found, hlookup, hfound⟩ := h hb
  refine ⟨found, hST.2.attackers _ _ hlookup, fun e he ↦ ?_⟩
  obtain ⟨y, hy, hsimilar, hanswered⟩ := hfound e he
  exact ⟨y, hy.mono hST.1, hsimilar, hanswered.mono hST.2⟩

theorem defend_explained (arena : Arena) (moves : ℕ) {S : Stage} (hS : S.Sound arena) {a : Argument}
    (ha : S.Has .pro a) :
    Search.Upholds arena S (Preferred.defend arena moves (.seeded a)) fun T r ↦
      Explained T a r.isSome := by
  refine (defend_explains arena moves hS (.seeded ha)).imp fun T r _ _ hr hsome ↦ ?_
  obtain ⟨d, rfl⟩ := Option.isSome_iff_exists.mp hsome
  obtain ⟨hcontinues, hfaced⟩ := hr d rfl
  obtain ⟨found, hlookup, hcontains⟩ := hfaced a rfl
  refine ⟨found, hlookup, fun e he ↦ ?_⟩
  obtain ⟨y, hy, hsimilar⟩ := List.any_eq_true.mp (hcontains e he)
  -- Before the dispute nothing had been put forward by the opponent.
  have hanswered := (hcontinues.answered y hy).resolve_left (by simp [Dispute.seeded])
  exact ⟨y, hcontinues.onStage.opp y hy, hsimilar, hanswered⟩

/-- Each attacker listed for a seed of an undefeated answer is accounted for, or has no verdict
because the opponent put forward a similar one, which is accounted for; and whichever defenders are
recorded against it attack it. -/
theorem acceptance_accounted (q : Query) (hq : q.settings.semantics = .preferredCredulous)
    (moves next : ℕ) (outcome : Outcome) (h : q.run moves next = some outcome) :
    ∀ answer ∈ outcome.answers, answer.undefeated = true → ∀ a ∈ answer.arguments,
      ∃ found, outcome.proof.attackers.lookup a.id = some found ∧ ∀ e ∈ found.successful,
        (∀ z ∈ outcome.proof.defendersFrom e.attacker,
          z.attacks q.settings.restricted e.attacker = true) ∧
        (outcome.proof.Accounts q.settings.restricted e.attacker ∨
          outcome.proof.status e.attacker = .unset ∧ ∃ y, outcome.proof.Mentions y.id ∧
            y.isSimilar e.attacker = true ∧ outcome.proof.Accounts q.settings.restricted y) := by
  have hkeeps : q.Keeps moves Stage.session (Stage.Ready q.arena) Stage.Follows
      fun S a b ↦ S.Has .pro a ∧ Explained S a b :=
    Query.keeps_sides (fun _ _ _ _ hST ↦ .mono hST) fun S a hS ha ↦ by
      rw [hq]
      exact defend_explained q.arena moves hS ha
  obtain ⟨L, S, hready, -, hproof, hjudged⟩ :=
    hkeeps.run rfl (Stage.ready_fresh q.arena next) h
  have hS := hready.sound
  rw [← hproof]
  intro answer hanswer hundefeated a ha
  obtain ⟨-, verdicts, hverdicts, hall⟩ := hjudged answer hanswer
  obtain ⟨hpro, hexplained⟩ := verdict_of_all hverdicts (hall.symm.trans hundefeated) a ha
  obtain ⟨found, hlookup, hfound⟩ := hexplained rfl
  refine ⟨found, hlookup, fun e he ↦ ?_⟩
  have hopp : S.Has .opp e.attacker := (hS.of_lookup hpro hlookup e he).1
  refine ⟨hS.defendersFrom_attack hopp, ?_⟩
  cases hstatus : S.proof.statuses.lookup e.attacker.id with
  | some status => exact .inl (hS.accounts hopp (Option.isSome_of_eq_some hstatus))
  | none =>
    obtain ⟨y, hy, hsimilar, hanswered⟩ := hfound e he
    refine .inr ⟨by rw [Proof.status, hstatus]; rfl, y, hS.mentions _ _ hy, hsimilar, ?_⟩
    exact hS.accounts hy hanswered.1

/-- There are two arguments for `~a`. That which rests on `p` is answered by one for `~p`, and this
is attacked by another one for `~a` that rests on `q`, since it rests on `a` itself. -/
def sharedAttacker : Query :=
  Arena.query (.ofAtoms .lastLink [("a", [], .half), ("~a", ["p"], .threeQuarters),
    ("~a", ["q"], .threeQuarters), ("p", [], .threeQuarters), ("q", [], .threeQuarters),
    ("~p", ["a"], .threeQuarters), ("~q", [], .one)]) .preferredCredulous [.const "a"]

theorem sharedAttacker_accounted : sharedAttacker.settings.semantics = .preferredCredulous ∧
    ∃ outcome, sharedAttacker.run 6 1 = some outcome ∧ outcome.isAccepted = true ∧
    ∀ answer ∈ outcome.answers, answer.undefeated = true → ∀ a ∈ answer.arguments,
      ∃ found, outcome.proof.attackers.lookup a.id = some found ∧ ∀ e ∈ found.successful,
        (∀ z ∈ outcome.proof.defendersFrom e.attacker,
          z.attacks sharedAttacker.settings.restricted e.attacker = true) ∧
        (outcome.proof.Accounts sharedAttacker.settings.restricted e.attacker ∨
          outcome.proof.status e.attacker = .unset ∧ ∃ y, outcome.proof.Mentions y.id ∧
            y.isSimilar e.attacker = true ∧
              outcome.proof.Accounts sharedAttacker.settings.restricted y) := by
  have hcheck : (sharedAttacker.run 6 1).any Outcome.isAccepted = true := by decide +kernel
  obtain ⟨outcome, hrun, haccepted⟩ := (Option.any_eq_true _ _).mp hcheck
  exact ⟨rfl, outcome, hrun, haccepted, acceptance_accounted sharedAttacker rfl 6 1 outcome hrun⟩

/-- Not every attacker of what is accepted is accounted for itself: the one that rests on `q` is
listed for the seed, but it has no verdict and no defender against it. -/
theorem sharedAttacker_passed_over :
    ¬∀ (q : Query) moves next outcome, q.settings.semantics = .preferredCredulous →
      q.run moves next = some outcome → ∀ answer ∈ outcome.answers, answer.undefeated = true →
        ∀ a ∈ answer.arguments, ∀ e ∈ (outcome.proof.attackersOf a).successful,
          outcome.proof.Accounts q.settings.restricted e.attacker := by
  intro h
  have hcheck : (sharedAttacker.run 6 1).any (fun outcome ↦ outcome.answers.any fun answer ↦
      answer.undefeated && answer.arguments.any fun a ↦
        (outcome.proof.attackersOf a).successful.any fun e ↦
          outcome.proof.status e.attacker = .unset &&
            (outcome.proof.defendersFrom e.attacker).isEmpty) = true := by
    decide +kernel
  obtain ⟨outcome, hrun, hcheck⟩ := (Option.any_eq_true _ _).mp hcheck
  obtain ⟨answer, hanswer, hcheck⟩ := List.any_eq_true.mp hcheck
  obtain ⟨hundefeated, hcheck⟩ := Bool.and_eq_true_iff.mp hcheck
  obtain ⟨a, ha, hcheck⟩ := List.any_eq_true.mp hcheck
  obtain ⟨e, he, hcheck⟩ := List.any_eq_true.mp hcheck
  obtain ⟨hunset, -⟩ := Bool.and_eq_true_iff.mp hcheck
  have haccounts := h sharedAttacker 6 1 outcome rfl hrun answer hanswer hundefeated a ha e he
  have hdefeated := haccounts.defeated
  rw [of_decide_eq_true hunset] at hdefeated
  cases hdefeated

end Preferred

end Argumentation
