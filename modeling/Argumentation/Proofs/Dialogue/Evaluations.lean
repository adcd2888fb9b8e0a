import Argumentation.Proofs.Argument.Register
import Argumentation.Proofs.Dialogue.Memory
import Argumentation.Proofs.RelatedLists
import Argumentation.Query

namespace Argumentation

namespace Session

def takeVariables (σ : Session) (n : ℕ) : Session :=
  { σ with supply := { σ.supply with freeVariable := σ.supply.freeVariable + n } }

def takeArgument (σ : Session) : Session :=
  { σ with supply := { σ.supply with freeArgument := σ.supply.freeArgument + 1 } }

end Session

/-- An invariant of the states that a query comes to, which are sessions with something more, under
the register of the arguments drawn so far. It is kept when numbers are taken and when a drawn
argument is evaluated; the evaluation leads to a verdict on the argument, which later states keep.
-/
structure Query.Keeps {X : Type} (q : Query) (moves : ℕ) (session : X → Session)
    (Inv : Register Argument → X → Prop) (Le : X → X → Prop)
    (Verdict : X → Argument → Bool → Prop) : Prop where
  refl : ∀ x, Le x x
  trans : ∀ x y z, Le x y → Le y z → Le x z
  verdict : ∀ x y a b, Le x y → Verdict x a b → Verdict y a b
  takeVariables : ∀ L x n, Inv L x →
    ∃ y, session y = (session x).takeVariables n ∧ Inv L y ∧ Le x y
  takeArgument : ∀ L x, Inv L x → L (session x).supply.freeArgument = none ∧
    ∃ y, session y = (session x).takeArgument ∧ Le x y ∧
      ∀ b, Inv (L.enter (session x).supply.freeArgument b) y
  evaluate : ∀ L x a r τ, Inv L x → a.EnteredIn L →
    q.settings.semantics.evaluate q.arena moves a (session x) = some (r, τ) →
    ∃ y, session y = τ ∧ Inv L y ∧ Le x y ∧ Verdict y a r.isSome

def Arena.query (arena : Arena) (semantics : Semantics) (es : List Term) : Query where
  expression := es
  store := arena.theory.store
  settings := { Settings.default with
    semantics
    restricted := arena.restricted
    valuation := arena.theory.valuation
    maxDepth := arena.theory.maxDepth }

namespace Query.Keeps

variable {X : Type} {q : Query} {moves : ℕ} {session : X → Session}
  {Inv : Register Argument → X → Prop} {Le : X → X → Prop} {Verdict : X → Argument → Bool → Prop}
  {L : Register Argument} {x : X}

theorem withstand (h : q.Keeps moves session Inv Le Verdict) {as : List Argument} (hx : Inv L x)
    (has : ∀ a ∈ as, a.EnteredIn L) {undefeated : Bool} {τ : Session}
    (hrun : q.withstand moves as (session x) = some (undefeated, τ)) :
    ∃ y verdicts, session y = τ ∧ Inv L y ∧ Le x y ∧ List.Forall₂ (Verdict y) as verdicts ∧
      undefeated = verdicts.all id := by
  induction as generalizing x undefeated τ with
  | nil =>
    obtain ⟨rfl, rfl⟩ := Search.pure_eq_some.mp hrun
    exact ⟨x, [], rfl, hx, h.refl x, .nil, rfl⟩
  | cons a as ih =>
    obtain ⟨ha, has⟩ := List.forall_mem_cons.mp has
    obtain ⟨r, ρ, hfirst, hrun⟩ := Search.bind_eq_some.mp hrun
    obtain ⟨rest, υ, hrest, hrun⟩ := Search.bind_eq_some.mp hrun
    obtain ⟨rfl, rfl⟩ := Search.pure_eq_some.mp hrun
    obtain ⟨y, rfl, hy, hxy, hverdict⟩ := h.evaluate L x a r ρ hx ha hfirst
    obtain ⟨z, verdicts, rfl, hz, hyz, hverdicts, rfl⟩ := ih hy has hrest
    exact ⟨z, r.isSome :: verdicts, rfl, hz, h.trans _ _ _ hxy hyz,
      .cons (h.verdict _ _ _ _ hyz hverdict) hverdicts, rfl⟩

def Judged (Verdict : X → Argument → Bool → Prop) (L : Register Argument) (x : X)
    (answer : Answer) : Prop :=
  (∀ a ∈ answer.arguments, a.EnteredIn L) ∧ ∃ verdicts,
    List.Forall₂ (Verdict x) answer.arguments verdicts ∧ answer.undefeated = verdicts.all id

theorem judged_mono (h : q.Keeps moves session Inv Le Verdict) {M : Register Argument} {y : X}
    {answer : Answer} (hLM : L ≤ M) (hxy : Le x y) (hj : Judged Verdict L x answer) :
    Judged Verdict M y answer := by
  obtain ⟨hentered, verdicts, hverdicts, hall⟩ := hj
  exact ⟨fun a ha ↦ hLM _ _ (hentered a ha), verdicts,
    hverdicts.imp fun a b ↦ h.verdict x y a b hxy, hall⟩

theorem visit (h : q.Keeps moves session Inv Le Verdict) {flow : Flow ArgumentList}
    (hflow : flow.Registers Theory.ListEntered L) (hx : Inv L x) {answers : List Answer}
    {τ : Session} (hrun : flow.visit (q.answer moves) (session x) = some (answers, τ)) :
    ∃ M y, L ≤ M ∧ session y = τ ∧ Inv M y ∧ Le x y ∧
      ∀ answer ∈ answers, Judged Verdict M y answer := by
  induction flow generalizing L x answers τ with
  | done =>
    obtain ⟨rfl, rfl⟩ := Search.pure_eq_some.mp hrun
    exact ⟨L, x, Register.le_refl L, rfl, hx, h.refl x, by simp⟩
  | yield l rest ih =>
    obtain ⟨answer, ρ, hanswer, hrun⟩ := Search.bind_eq_some.mp hrun
    obtain ⟨answers', υ, hrest, hrun⟩ := Search.bind_eq_some.mp hrun
    obtain ⟨rfl, rfl⟩ := Search.pure_eq_some.mp hrun
    obtain ⟨undefeated, υ', hwithstand, hanswer⟩ := Search.bind_eq_some.mp hanswer
    obtain ⟨rfl, rfl⟩ := Search.pure_eq_some.mp hanswer
    obtain ⟨y, verdicts, rfl, hy, hxy, hverdicts, hall⟩ := h.withstand hx hflow.1 hwithstand
    obtain ⟨M, z, hLM, rfl, hz, hyz, hjudged⟩ := ih () hflow.2 hy hrest
    refine ⟨M, z, hLM, rfl, hz, h.trans _ _ _ hxy hyz, List.forall_mem_cons.mpr ⟨?_, hjudged⟩⟩
    exact h.judged_mono hLM hyz ⟨hflow.1, verdicts, hverdicts, hall⟩
  | takeVariables n next ih =>
    obtain ⟨y, hsession, hy, hxy⟩ := h.takeVariables L x n hx
    obtain ⟨M, z, hLM, hz, hinv, hyz, hjudged⟩ := ih _ (hflow _) hy (by rw [hsession]; exact hrun)
    exact ⟨M, z, hLM, hz, hinv, h.trans _ _ _ hxy hyz, hjudged⟩
  | takeArgument next ih =>
    obtain ⟨hfree, y, hsession, hxy, hy⟩ := h.takeArgument L x hx
    obtain ⟨b, hb⟩ := hflow L (Register.le_refl L) _ hfree
    obtain ⟨M, z, hLM, hz, hinv, hyz, hjudged⟩ := ih _ hb (hy b) (by rw [hsession]; exact hrun)
    exact ⟨M, z, Register.le_trans (Register.le_enter hfree b) hLM, hz, hinv,
      h.trans _ _ _ hxy hyz, hjudged⟩

/-- The outcome of a query comes from a state with the invariant, in which all answers are judged.
-/
theorem run (h : q.Keeps moves session Inv Le Verdict) {next : ℕ}
    (hsession : session x = Query.session next) (hx : Inv .empty x) {outcome : Outcome}
    (hrun : q.run moves next = some outcome) :
    ∃ L y, Inv L y ∧ Le x y ∧ (session y).proof = outcome.proof ∧
      ∀ answer ∈ outcome.answers, Judged Verdict L y answer := by
  obtain ⟨⟨answers, τ⟩, hsearch, rfl⟩ := Option.map_eq_some_iff.mp hrun
  rw [← hsession] at hsearch
  obtain ⟨L, y, -, rfl, hy, hxy, hjudged⟩ :=
    h.visit (q.theory.argumentLists_registers _ _ _) hx hsearch
  exact ⟨L, y, hy, hxy, rfl, hjudged⟩

end Query.Keeps

section Verdicts

variable {P : Argument → Bool → Prop} {as : List Argument} {verdicts : List Bool}

theorem verdict_of_all (h : List.Forall₂ P as verdicts) (hall : verdicts.all id = true) :
    ∀ a ∈ as, P a true := by
  intro a ha
  obtain ⟨b, hb, hab⟩ := exists_of_forall₂ h a ha
  obtain rfl : b = true := List.all_eq_true.mp hall b hb
  exact hab

theorem all_verdicts_iff (h : List.Forall₂ P as verdicts) {Q : Argument → Prop}
    (hQ : ∀ a ∈ as, ∀ b, P a b → (b = true ↔ Q a)) : verdicts.all id = true ↔ ∀ a ∈ as, Q a := by
  induction h with
  | nil => simp
  | cons hab _ ih =>
    obtain ⟨hQ, hQs⟩ := List.forall_mem_cons.mp hQ
    rw [List.all_cons, Bool.and_eq_true, ih hQs, List.forall_mem_cons]
    exact and_congr_left' (hQ _ hab)

end Verdicts

end Argumentation
