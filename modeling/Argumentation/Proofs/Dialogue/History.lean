import Argumentation.Proofs.Dialogue.Casting
import Argumentation.Proofs.Dialogue.Counterparts
import Argumentation.Proofs.Dialogue.Recall
import Argumentation.Proofs.Preferred.Account

namespace Argumentation

open Equiv (Perm)

open Passage (CarriesList)

open Session (Precedes)

namespace Query

variable {q : Query} {moves : ℕ} {L : Register Argument} {S : Stage} {w : Passage} {a : Argument}

/-- In every fresh session, the argument alone gets this verdict. -/
def Judges (q : Query) (moves : ℕ) (a : Argument) (accepted : Bool) : Prop :=
  ∀ s, a.Fits s → q.settings.semantics.verdict? q.arena moves a (.fresh s) = some accepted

/-- The verdict on the argument is that of fresh sessions, and it gets the same one in all sessions
that come after this one. -/
structure Confirms (q : Query) (moves : ℕ) (σ : Session) (a : Argument) (accepted : Bool) :
    Prop where
  judges : q.Judges moves a accepted
  recalls : ∀ τ, σ.Precedes τ → q.settings.semantics.verdict? q.arena moves a τ = some accepted

theorem Confirms.mono {σ τ : Session} {accepted : Bool} (h : q.Confirms moves σ a accepted)
    (hle : σ.Precedes τ) : q.Confirms moves τ a accepted :=
  ⟨h.judges, fun ρ hρ ↦ h.recalls ρ (trans_of Precedes hle hρ)⟩

/-- A stage in which each of the drawn arguments is on no side, or has a verdict that is confirmed.
-/
structure Aware (q : Query) (moves : ℕ) (L : Register Argument) (S : Stage) : Prop where
  ready : S.Ready q.arena L
  drawn : ∀ a, a.EnteredIn L → S.cast a.id = none ∨ ∃ b, q.Confirms moves S.session a b

namespace Aware

theorem fresh (q : Query) (moves next : ℕ) : q.Aware moves .empty (.fresh next) :=
  ⟨Stage.ready_fresh q.arena next, nofun⟩

theorem takeVariables (h : q.Aware moves L S) (n : ℕ) :
    q.Aware moves L ⟨S.cast, S.session.takeVariables n⟩ := by
  refine ⟨h.ready.takeVariables n, fun a ha ↦ (h.drawn a ha).imp_right ?_⟩
  rintro ⟨b, hb⟩
  exact ⟨b, hb.mono ⟨.refl _, S.session.supply.le_takeVariables n⟩⟩

theorem takeArgument (h : q.Aware moves L S) (b : Argument) :
    q.Aware moves (L.enter S.free b) ⟨S.cast, S.session.takeArgument⟩ := by
  refine ⟨h.ready.takeArgument b, fun a ha ↦ ?_⟩
  by_cases hid : a.id = S.free
  · exact .inl (hid ▸ h.ready.sound.free _ (Nat.le_refl _))
  rw [Argument.EnteredIn, Register.enter_of_ne hid] at ha
  refine (h.drawn a ha).imp_right ?_
  rintro ⟨c, hc⟩
  exact ⟨c, hc.mono ⟨.refl _, S.session.supply.le_takeArgument⟩⟩

theorem unaware (h : q.Aware moves L S) (hfits : a.Fits S.session.supply)
    (hnone : S.cast a.id = none) : S.session.Unaware a where
  fits := hfits
  unknown := h.ready.sound.lookup_eq_none hnone
  free id hid := h.ready.sound.lookup_eq_none (h.ready.sound.free id hid)

/-- A test comes to the verdict of fresh sessions, whether it is the first one or not. -/
theorem evaluate (h : q.Aware moves L S) (ha : a.EnteredIn L) (hfits : a.Fits S.session.supply)
    {r : Option Dispute} {τ : Session}
    (hrun : q.settings.semantics.evaluate q.arena moves a S.session = some (r, τ)) :
    ∃ T : Stage, T.session = τ ∧ q.Aware moves L T ∧ S.session.Precedes τ ∧
      q.Judges moves a r.isSome := by
  have hreplays := q.settings.semantics.evaluate_recalls q.arena moves a S.session r τ hrun
  have hverdict : q.settings.semantics.verdict? q.arena moves a S.session = some r.isSome := by
    rw [Semantics.verdict?, hrun, Option.map_some]
  have hjudges : q.Judges moves a r.isSome := by
    rcases h.drawn a ha with hnone | ⟨b, hb⟩
    · -- Neither this session nor a fresh one knows of the argument.
      intro s hs
      rw [← hverdict]
      exact Semantics.verdict?_congr _ _ _ (.fresh hs) (h.unaware hfits hnone)
    · -- The earlier test is repeated.
      have hsame := hb.recalls S.session (refl_of Precedes _)
      rw [hverdict, Option.some.injEq] at hsame
      exact hsame ▸ hb.judges
  have hconfirms : q.Confirms moves τ a r.isSome := by
    refine ⟨hjudges, fun ρ hρ ↦ ?_⟩
    obtain ⟨ρ', hrun', -⟩ := hreplays.repeated ρ hρ
    rw [Semantics.verdict?, hrun', Option.map_some]
  obtain ⟨_, ρ, hrecord, hrun⟩ := Search.bind_eq_some.mp hrun
  cases hrecord
  obtain ⟨C, hleads, hsound, -⟩ := q.settings.semantics.defend_upholds q.arena moves
    (h.ready.seeded ha) (.seeded (S.has_seeded a)) r τ hrun
  refine ⟨⟨C, τ⟩, rfl, ⟨h.ready.of_leads ha hsound hleads, fun b hb ↦ ?_⟩, hreplays.later, hjudges⟩
  by_cases hid : b.id = a.id
  · rw [Argument.EnteredIn, hid, ha, Option.some.injEq] at hb
    exact .inr ⟨r.isSome, hb ▸ hconfirms⟩
  · rcases h.drawn b hb with hnone | ⟨c, hc⟩
    · refine .inl ((hleads.kept b.id (h.ready.lt_free hb)).trans ?_)
      exact (Register.enter_of_ne hid _).trans hnone
    · exact .inr ⟨c, hc.mono hreplays.later⟩

theorem withstand (h : q.Aware moves L S) {as : List Argument} (has : ∀ a ∈ as, a.EnteredIn L)
    (hfits : ∀ a ∈ as, a.Fits S.session.supply) {undefeated : Bool} {τ : Session}
    (hrun : q.withstand moves as S.session = some (undefeated, τ)) :
    ∃ (T : Stage) (verdicts : List Bool), T.session = τ ∧ q.Aware moves L T ∧
      S.session.Precedes τ ∧ List.Forall₂ (q.Judges moves) as verdicts ∧
      undefeated = verdicts.all id := by
  induction as generalizing S undefeated τ with
  | nil =>
    obtain ⟨rfl, rfl⟩ := Search.pure_eq_some.mp hrun
    exact ⟨S, [], rfl, h, refl_of Precedes _, .nil, rfl⟩
  | cons a as ih =>
    obtain ⟨ha, has⟩ := List.forall_mem_cons.mp has
    obtain ⟨hfit, hfits⟩ := List.forall_mem_cons.mp hfits
    obtain ⟨r, ρ, hfirst, hrun⟩ := Search.bind_eq_some.mp hrun
    obtain ⟨rest, υ, hrest, hrun⟩ := Search.bind_eq_some.mp hrun
    obtain ⟨rfl, rfl⟩ := Search.pure_eq_some.mp hrun
    obtain ⟨T, rfl, hT, hle, hjudges⟩ := h.evaluate ha hfit hfirst
    obtain ⟨U, verdicts, rfl, hU, hle', hverdicts, rfl⟩ :=
      ih hT has (fun b hb ↦ (hfits b hb).mono hle.supply) hrest
    exact ⟨U, r.isSome :: verdicts, rfl, hU, trans_of Precedes hle hle', .cons hjudges hverdicts,
      rfl⟩

end Aware

/-- The answer is that on what the list is in the session of the query, with the verdicts of fresh
sessions. -/
structure Reports (q : Query) (moves : ℕ) (w : Passage) (l : ArgumentList) (answer : Answer) :
    Prop where
  fits : l.Fits w.source
  arguments : answer.arguments = (w.carryList l).arguments
  expression : answer.expression = q.expression.map (w.carryList l).substitution.apply
  judged : ∃ verdicts, List.Forall₂ (q.Judges moves) answer.arguments verdicts ∧
    answer.undefeated = verdicts.all id

theorem Reports.mono {w' : Passage} {l : ArgumentList} {answer : Answer} (hw : w ≤ w')
    (h : q.Reports moves w l answer) : q.Reports moves w' l answer where
  fits := h.fits.mono hw.source
  arguments := by rw [h.arguments, Passage.carryList_congr hw h.fits]
  expression := by rw [h.expression, Passage.carryList_congr hw h.fits]
  judged := h.judged

/-- The answer of a query on a list, whose tests may take numbers in its session. -/
theorem Aware.answer (h : q.Aware moves L S) (htarget : w.target = S.session.supply)
    {l : ArgumentList} (hfits : l.Fits w.source) (hentered : Theory.ListEntered L (w.carryList l))
    {answer : Answer} {τ : Session}
    (hrun : q.answer moves (w.carryList l) S.session = some (answer, τ)) :
    ∃ (T : Stage) (w' : Passage), T.session = τ ∧ q.Aware moves L T ∧ w ≤ w' ∧
      w'.source = w.source ∧ w'.target = τ.supply ∧ q.Reports moves w' l answer := by
  obtain ⟨undefeated, υ, hwithstand, hanswer⟩ := Search.bind_eq_some.mp hrun
  obtain ⟨rfl, rfl⟩ := Search.pure_eq_some.mp hanswer
  have hdrawn : ∀ a ∈ (w.carryList l).arguments, a.Fits S.session.supply := by
    intro a ha
    obtain ⟨b, hb, rfl⟩ := List.mem_map.mp ha
    exact htarget ▸ Passage.fits_carry (hfits.arguments b hb)
  obtain ⟨T, verdicts, rfl, hT, hle, hverdicts, hall⟩ := h.withstand hentered hdrawn hwithstand
  have hgrown : w.target ≤ T.session.supply := htarget ▸ hle.supply
  exact ⟨T, w.withTarget hgrown, rfl, hT, Passage.le_withTarget hgrown, rfl, rfl,
    Reports.mono (Passage.le_withTarget hgrown) ⟨hfits, rfl, rfl, verdicts, hverdicts, hall⟩⟩

/-- The answers of a query report on the lists that are drawn in the other session, one after the
other. -/
theorem Aware.visit {f g : Flow ArgumentList} (htwins : Flow.Twins CarriesList w f g)
    (h : q.Aware moves L S) (hentered : g.Registers Theory.ListEntered L)
    (htarget : w.target = S.session.supply) {answers : List Answer} {τ : Session}
    (hrun : g.visit (q.answer moves) S.session = some (answers, τ)) :
    ∃ w', w ≤ w' ∧ List.Forall₂ (q.Reports moves w') (f.toList w.source).1 answers := by
  induction htwins generalizing L S answers τ with
  | done w =>
    obtain ⟨rfl, rfl⟩ := Search.pure_eq_some.mp hrun
    exact ⟨w, Passage.le_refl w, .nil⟩
  | @yield w l m f g hlm _ ih =>
    obtain ⟨hfits, rfl⟩ := hlm
    obtain ⟨answer, ρ, hanswer, hrun⟩ := Search.bind_eq_some.mp hrun
    obtain ⟨answers', υ, hrest, hrun⟩ := Search.bind_eq_some.mp hrun
    obtain ⟨rfl, rfl⟩ := Search.pure_eq_some.mp hrun
    obtain ⟨T, w', rfl, hT, hw, hs, ht, hreports⟩ := h.answer htarget hfits hentered.1 hanswer
    obtain ⟨w'', hw', hanswers⟩ := ih w' hw hT hentered.2 ht hrest
    rw [hs] at hanswers
    exact ⟨w'', Passage.le_trans hw hw', .cons (hreports.mono hw') hanswers⟩
  | @takeVariables w w' n f g hw hs ht _ ih =>
    have hrest : (g w.target.freeVariable).visit (q.answer moves) (S.session.takeVariables n) =
        some (answers, τ) := by
      rw [htarget]
      exact hrun
    obtain ⟨w'', hw', hanswers⟩ := ih (h.takeVariables n) (hentered _)
      (by rw [ht, htarget]; rfl) hrest
    rw [hs] at hanswers
    exact ⟨w'', Passage.le_trans hw hw', hanswers⟩
  | @takeArgument w w' f g hw hs ht _ ih =>
    have hrest : (g w.target.freeArgument).visit (q.answer moves) S.session.takeArgument =
        some (answers, τ) := by
      rw [htarget]
      exact hrun
    obtain ⟨b, hb⟩ := hentered L (Register.le_refl L) S.free (h.ready.free _ (Nat.le_refl _))
    obtain ⟨w'', hw', hanswers⟩ := ih (h.takeArgument b) (by rw [htarget]; exact hb)
      (by rw [ht, htarget]; rfl) hrest
    rw [hs] at hanswers
    exact ⟨w'', Passage.le_trans hw hw', hanswers⟩

/-- The answer is that on the list, apart from the numbers of arguments, and from those of
variables, which are exchanged. -/
structure Matches (q : Query) (π : Perm ℕ) (answer : Answer) (l : ArgumentList) : Prop where
  arguments : answer.arguments.map Argument.form = l.arguments.map fun a ↦ π • a.form
  expression : answer.expression = q.expression.map fun e ↦ π • l.substitution.apply e

/-- The list that was found for a query in one session and the answer that was given in another one
come from the same list. -/
theorem Reports.matches {v : Passage} {l m : ArgumentList} {answer : Answer}
    (h : q.Reports moves w l answer) (hm : v.CarriesList l m)
    (hw : ∀ e ∈ q.expression, w.vars • e = e) (hv : ∀ e ∈ q.expression, v.vars • e = e) :
    q.Matches (w.vars * v.vars⁻¹) answer m := by
  obtain ⟨-, rfl⟩ := hm
  have hcancel {β : Type} [MulAction (Perm ℕ) β] (x : β) :
      (w.vars * v.vars⁻¹) • v.vars • x = w.vars • x := by
    rw [mul_smul, inv_smul_smul]
  have happly {u : Passage} (hu : ∀ e ∈ q.expression, u.vars • e = e) {e : Term}
      (he : e ∈ q.expression) : (u.carryList l).substitution.apply e =
        u.vars • l.substitution.apply e := by
    rw [Substitution.smul_apply, hu e he]
    rfl
  refine ⟨?_, ?_⟩
  · rw [h.arguments, Passage.carryList, Passage.carryList, List.map_map, List.map_map]
    refine List.map_congr_left fun a _ ↦ ?_
    simp only [Function.comp_apply, Passage.carry_form, hcancel]
  · rw [h.expression]
    refine List.map_congr_left fun e he ↦ ?_
    rw [happly hw he, happly hv he, hcancel]

theorem Reports.fits_arguments {l : ArgumentList} {answer : Answer}
    (h : q.Reports moves w l answer) :
    ∀ a ∈ answer.arguments, a.Fits w.target := by
  rw [h.arguments]
  intro a ha
  obtain ⟨b, hb, rfl⟩ := List.mem_map.mp ha
  exact Passage.fits_carry (h.fits.arguments b hb)

/-- The answers of a query are those on the lists that are found without any tests in between, in
the same order, and the verdicts are those of fresh sessions: whichever arguments were tested
before, each argument of an answer has one verdict in all fresh sessions, and the answer is
undefeated just if all of them are accepted there. -/
theorem run_history_independent (q : Query) (moves next : ℕ)
    (hq : ∀ e ∈ q.expression, ∀ v ∈ e.occurrences, v.id < next) (outcome : Outcome)
    (hrun : q.run moves next = some outcome) (alone : Supply) (halone : next ≤ alone.freeVariable) :
    (∃ π : Perm ℕ, (∀ i < next, π i = i) ∧ List.Forall₂ (q.Matches π) outcome.answers
      ((q.theory.argumentLists (.ofFloat q.settings.minStrength) q.expression).toList alone).1) ∧
    ∀ answer ∈ outcome.answers, (∃ s, ∀ a ∈ answer.arguments, a.Fits s) ∧
      (∀ a ∈ answer.arguments, ∃ accepted, q.Judges moves a accepted) ∧
      (answer.undefeated = true ↔ ∀ a ∈ answer.arguments, q.Judges moves a true) := by
  obtain ⟨⟨answers, τ⟩, hsearch, rfl⟩ := Option.map_eq_some_iff.mp hrun
  -- Both searches are compared with one in a session where only the variables of the query are
  -- taken, since neither of the two sessions need have taken all numbers of the other one.
  have hle : (⟨next, 0⟩ : Supply) ≤ (session next).supply := ⟨Nat.le_refl next, Nat.zero_le 1⟩
  have hle' : (⟨next, 0⟩ : Supply) ≤ alone := ⟨halone, Nat.zero_le _⟩
  have hbelow : ∀ e ∈ q.expression, Below next e := fun e he ↦ Term.below_of_occurrences (hq e he)
  obtain ⟨w, hw, hanswers⟩ := (Aware.fresh q moves next).visit
    (q.theory.argumentLists_twins_keeping (.ofFloat q.settings.minStrength) hle hbelow)
    (q.theory.argumentLists_registers _ _ _) rfl hsearch
  obtain ⟨v, hv, -, -, hlists⟩ := (q.theory.argumentLists_twins_keeping
    (.ofFloat q.settings.minStrength) hle' hbelow).toList CarriesList.mono
  have hwkeeps : ∀ i < next, w.vars i = i := hw.vars
  have hvkeeps : ∀ i < next, v.vars i = i := hv.vars
  refine ⟨⟨w.vars * v.vars⁻¹, fun i hi ↦ ?_, ?_⟩, fun answer hanswer ↦ ?_⟩
  · rw [Perm.mul_apply, Perm.inv_eq_iff_eq.mpr (hvkeeps i hi).symm, hwkeeps i hi]
  · refine forall₂_of_common hanswers.flip hlists.flip fun answer m l hanswer hm ↦
      hanswer.matches hm ?_ ?_
    · exact fun e he ↦ Below.iff_forall.mp (hbelow e he) _ hwkeeps
    · exact fun e he ↦ Below.iff_forall.mp (hbelow e he) _ hvkeeps
  · obtain ⟨l, -, hl⟩ := exists_of_forall₂ hanswers.flip answer hanswer
    obtain ⟨verdicts, hverdicts, hall⟩ := hl.judged
    refine ⟨⟨w.target, hl.fits_arguments⟩, fun a ha ↦ ?_, ?_⟩
    · obtain ⟨b, -, hb⟩ := exists_of_forall₂ hverdicts a ha
      exact ⟨b, hb⟩
    rw [hall]
    refine all_verdicts_iff hverdicts fun a ha b hb ↦ ⟨fun hb' ↦ hb' ▸ hb, fun hb' ↦ ?_⟩
    have hfits := hl.fits_arguments a ha
    exact Option.some.inj ((hb _ hfits).symm.trans (hb' _ hfits))

/-- The argument for `a` and the first one for `~a` are in one answer, `a` and the second one for
`~a` in another one. -/
def contested : Query :=
  { Preferred.sharedAttacker with expression := [.const "a", .const "~a"] }

/-- The test of `a` comes first in both answers to `contested`, and is the same. -/
theorem contested_history_independent :
    (∀ e ∈ contested.expression, ∀ v ∈ e.occurrences, v.id < 1) ∧ 1 ≤ 3 ∧
    ∃ outcome, contested.run 6 1 = some outcome ∧
      outcome.answers.map (fun answer ↦ (answer.undefeated, answer.arguments.map (·.id))) =
        [(true, [1, 3]), (false, [1, 22])] ∧
    (∃ π : Perm ℕ, (∀ i < 1, π i = i) ∧ List.Forall₂ (contested.Matches π) outcome.answers
      ((contested.theory.argumentLists (.ofFloat contested.settings.minStrength)
        contested.expression).toList ⟨3, 7⟩).1) ∧
    ∀ answer ∈ outcome.answers, (∃ s, ∀ a ∈ answer.arguments, a.Fits s) ∧
      (∀ a ∈ answer.arguments, ∃ accepted, contested.Judges 6 a accepted) ∧
      (answer.undefeated = true ↔ ∀ a ∈ answer.arguments, contested.Judges 6 a true) := by
  have hground : ∀ e ∈ contested.expression, ∀ v ∈ e.occurrences, v.id < 1 := by
    decide +kernel
  have hcheck : (contested.run 6 1).any (fun outcome ↦
      outcome.answers.map (fun answer ↦ (answer.undefeated, answer.arguments.map (·.id))) =
        [(true, [1, 3]), (false, [1, 22])]) = true := by
    decide +kernel
  obtain ⟨outcome, hrun, hanswers⟩ := (Option.any_eq_true _ _).mp hcheck
  exact ⟨hground, by decide, outcome, hrun, of_decide_eq_true hanswers,
    run_history_independent contested 6 1 hground outcome hrun ⟨3, 7⟩ (by decide)⟩

end Query

end Argumentation
