import Argumentation.Argument.Construction
import Argumentation.Proofs.Argument.Drawing
import Mathlib.Order.Nat

namespace Argumentation

def Register (α : Type) : Type :=
  ArgumentId → Option α

namespace Register

variable {α : Type} {K L M : Register α} {k n m : ℕ}

def empty : Register α :=
  fun _ ↦ none

def enter (L : Register α) (id : ArgumentId) (x : α) : Register α :=
  fun i ↦ if i = id then some x else L i

instance : LE (Register α) :=
  ⟨fun L M ↦ ∀ id x, L id = some x → M id = some x⟩

theorem le_refl (L : Register α) : L ≤ L :=
  fun _ _ h ↦ h

theorem le_trans (h : K ≤ L) (h' : L ≤ M) : K ≤ M :=
  fun id x hx ↦ h' id x (h id x hx)

theorem enter_self (L : Register α) (id : ArgumentId) (x : α) : L.enter id x id = some x :=
  if_pos rfl

theorem enter_of_ne {id i : ArgumentId} (h : i ≠ id) (x : α) : L.enter id x i = L i :=
  if_neg h

theorem le_enter {id : ArgumentId} (h : L id = none) (x : α) : L ≤ L.enter id x := by
  intro i y hy
  have hne : i ≠ id := by
    rintro rfl
    rw [h] at hy
    cases hy
  rw [enter_of_ne hne, hy]

/-- A register with entries for numbers below `n` was continued, by entries for numbers from `n` on,
to one with entries for numbers below `m`. -/
structure Continues (L : Register α) (n : ℕ) (M : Register α) (m : ℕ) : Prop where
  le : n ≤ m
  kept : ∀ id < n, M id = L id
  free : ∀ id, m ≤ id → M id = none

theorem Continues.refl (h : ∀ id, n ≤ id → L id = none) : L.Continues n L n :=
  ⟨Nat.le_refl n, fun _ _ ↦ rfl, h⟩

theorem Continues.trans (h : K.Continues k L n) (h' : L.Continues n M m) : K.Continues k M m where
  le := h.le.trans h'.le
  kept id hid := (h'.kept id (hid.trans_le h.le)).trans (h.kept id hid)
  free := h'.free

theorem Continues.extends (h : K.Continues k L n) (hK : ∀ id, k ≤ id → K id = none) : K ≤ L := by
  intro id x hx
  rcases Nat.lt_or_ge id k with hid | hid
  · rw [h.kept id hid, hx]
  · rw [hK id hid] at hx
    cases hx

theorem Continues.lt (h : K.Continues k L n) {id : ArgumentId} {x : α} (hx : L id = some x) :
    id < n := by
  by_contra hid
  rw [h.free id (not_lt.mp hid)] at hx
  cases hx

theorem Continues.enter (h : ∀ id, n ≤ id → L id = none) (x : α) :
    L.Continues n (L.enter n x) (n + 1) where
  le := Nat.le_succ n
  kept _ hid := enter_of_ne (Nat.ne_of_lt hid) x
  free id hid := by
    rw [enter_of_ne (Nat.ne_of_gt hid), h id (Nat.le_of_succ_le hid)]

end Register

def Argument.EnteredIn (L : Register Argument) (a : Argument) : Prop :=
  L a.id = some a

namespace Flow

variable {α β γ : Type} {good : Register Argument → α → Prop} {L M : Register Argument}

/-- Whatever free numbers a flow is given, each of its elements is good under the register of its
time, provided that the arguments that took the numbers are entered. -/
def Registers (good : Register Argument → α → Prop) : Flow α → Register Argument → Prop
  | .done, _ => True
  | .yield a rest, L => good L a ∧ Registers good (rest ()) L
  | .takeVariables _ next, L => ∀ base, Registers good (next base) L
  | .takeArgument next, L =>
    ∀ M, L ≤ M → ∀ id, M id = none → ∃ b, Registers good (next id) (M.enter id b)

def Enduring (good : Register Argument → α → Prop) : Prop :=
  ∀ L M a, L ≤ M → good L a → good M a

theorem Registers.mono (hs : Enduring good) {f : Flow α} (h : f.Registers good L) (hLM : L ≤ M) :
    f.Registers good M := by
  induction f generalizing L M with
  | done => trivial
  | yield a rest ih => exact ⟨hs L M a hLM h.1, ih () h.2 hLM⟩
  | takeVariables n next ih => exact fun base ↦ ih base (h base) hLM
  | takeArgument next ih => exact fun N hN ↦ h N (Register.le_trans hLM hN)

theorem Registers.pure {a : α} (ha : good L a) : (Flow.pure a).Registers good L :=
  ⟨ha, trivial⟩

theorem Registers.append {f : Flow α} {k : Unit → Flow α} (hf : f.Registers good L)
    (hk : ∀ M, L ≤ M → (k ()).Registers good M) : (f.append k).Registers good L := by
  induction f generalizing L with
  | done => exact hk L (Register.le_refl L)
  | yield a rest ih => exact ⟨hf.1, ih () hf.2 hk⟩
  | takeVariables n next ih => exact fun base ↦ ih base (hf base) hk
  | takeArgument next ih =>
    intro M hM id hid
    obtain ⟨b, hb⟩ := hf M hM id hid
    refine ⟨b, ih id hb fun N hN ↦ hk N ?_⟩
    exact Register.le_trans hM (Register.le_trans (Register.le_enter hid b) hN)

theorem Registers.bind {good' : Register Argument → β → Prop} (hs : Enduring good) {f : Flow α}
    {k : α → Flow β} (hf : f.Registers good L)
    (hk : ∀ M a, L ≤ M → good M a → (k a).Registers good' M) :
    (f.bind k).Registers good' L := by
  induction f generalizing L with
  | done => trivial
  | yield a rest ih =>
    refine (hk L a (Register.le_refl L) hf.1).append fun M hM ↦ ?_
    exact ih () (hf.2.mono hs hM) fun N b hN ↦ hk N b (Register.le_trans hM hN)
  | takeVariables n next ih => exact fun base ↦ ih base (hf base) hk
  | takeArgument next ih =>
    intro M hM id hid
    obtain ⟨b, hb⟩ := hf M hM id hid
    refine ⟨b, ih id hb fun N c hN ↦ hk N c ?_⟩
    exact Register.le_trans hM (Register.le_trans (Register.le_enter hid b) hN)

theorem Registers.concat {bs : List γ} {f : γ → Flow α}
    (hf : ∀ b ∈ bs, ∀ M, L ≤ M → (f b).Registers good M) :
    (Flow.concat bs f).Registers good L := by
  induction bs generalizing L with
  | nil => trivial
  | cons b bs ih =>
    refine (hf b (.head _) L (Register.le_refl L)).append fun M hM ↦ ih fun c hc N hN ↦ ?_
    exact hf c (.tail _ hc) N (Register.le_trans hM hN)

theorem Registers.ifEmpty {good' : Register Argument → β → Prop} {f : Flow β} {k : Flow α}
    (hf : f.Registers good' L) (hk : ∀ M, L ≤ M → k.Registers good M) :
    (f.ifEmpty k).Registers good L := by
  induction f generalizing L with
  | done => exact hk L (Register.le_refl L)
  | yield a rest => trivial
  | takeVariables n next ih => exact fun base ↦ ih base (hf base) hk
  | takeArgument next ih =>
    intro M hM id hid
    obtain ⟨b, hb⟩ := hf M hM id hid
    refine ⟨b, ih id hb fun N hN ↦ hk N ?_⟩
    exact Register.le_trans hM (Register.le_trans (Register.le_enter hid b) hN)

/-- A flow drawn to its end gives out the numbers from the next free one on. -/
theorem Registers.toList (hs : Enduring good) {f : Flow α} (h : f.Registers good L) {s : Supply}
    (hfree : ∀ id, s.freeArgument ≤ id → L id = none) :
    ∃ M, L.Continues s.freeArgument M (f.toList s).2.freeArgument ∧
      ∀ a ∈ (f.toList s).1, good M a := by
  induction f generalizing L s with
  | done => exact ⟨L, .refl hfree, by simp [Flow.toList]⟩
  | yield a rest ih =>
    obtain ⟨M, hM, hgood⟩ := ih () h.2 hfree
    refine ⟨M, hM, List.forall_mem_cons.mpr ⟨?_, hgood⟩⟩
    exact hs L M a (hM.extends hfree) h.1
  | takeVariables n next ih =>
    exact ih _ (h _) (s := { s with freeVariable := s.freeVariable + n }) hfree
  | takeArgument next ih =>
    obtain ⟨b, hb⟩ := h L (Register.le_refl L) s.freeArgument (hfree _ (Nat.le_refl _))
    have henter := Register.Continues.enter hfree b
    obtain ⟨M, hM, hgood⟩ := ih _ hb (s := { s with freeArgument := s.freeArgument + 1 })
      henter.free
    exact ⟨M, henter.trans hM, hgood⟩

/-- Drawing one element takes the numbers from the next free one on, and leaves the rest good. -/
theorem Registers.next {f : Flow α} (h : f.Registers good L) {s : Supply}
    (hfree : ∀ id, s.freeArgument ≤ id → L id = none) :
    ∃ M, L.Continues s.freeArgument M (f.next s).2.freeArgument ∧
      ∀ a rest, (f.next s).1 = some (a, rest) → good M a ∧ rest.Registers good M := by
  induction f generalizing L s with
  | done => exact ⟨L, .refl hfree, fun a rest hnext ↦ by cases hnext⟩
  | yield a rest ih =>
    refine ⟨L, .refl hfree, fun b rest' hnext ↦ ?_⟩
    cases hnext
    exact h
  | takeVariables n next ih =>
    exact ih _ (h _) (s := { s with freeVariable := s.freeVariable + n }) hfree
  | takeArgument next ih =>
    obtain ⟨b, hb⟩ := h L (Register.le_refl L) s.freeArgument (hfree _ (Nat.le_refl _))
    have henter := Register.Continues.enter hfree b
    obtain ⟨M, hM, hgood⟩ := ih _ hb (s := { s with freeArgument := s.freeArgument + 1 })
      henter.free
    exact ⟨M, henter.trans hM, hgood⟩

theorem Registers.of_all {P : α → Prop} {good' : Register Argument → α → Prop} {f : Flow α}
    (h : f.Registers good L) (hP : f.All P) (hgood : ∀ M a, good M a → P a → good' M a) :
    f.Registers good' L := by
  induction f generalizing L with
  | done => trivial
  | yield a rest ih => exact ⟨hgood L a h.1 hP.1, ih () h.2 hP.2⟩
  | takeVariables n next ih => exact fun base ↦ ih base (h base) (hP base)
  | takeArgument next ih =>
    intro M hM id hid
    obtain ⟨b, hb⟩ := h M hM id hid
    exact ⟨b, ih id hb (hP id)⟩

end Flow

namespace Theory

open Argumentation.Flow (Enduring)

variable {t : Theory} {L : Register Argument} {p : Position} {s : Substitution}
  {good : Register Argument → Argument → Prop}

def ListEntered (L : Register Argument) (l : ArgumentList) : Prop :=
  ∀ a ∈ l.arguments, a.EnteredIn L

def ListOf (good : Register Argument → Argument → Prop) (L : Register Argument)
    (l : ArgumentList) : Prop :=
  ∀ a ∈ l.arguments, good L a

theorem enduring_enteredIn : Enduring Argument.EnteredIn :=
  fun _ _ _ hLM ha ↦ hLM _ _ ha

theorem enduring_listOf (hs : Enduring good) : Enduring (ListOf good) :=
  fun _ _ _ hLM hl a ha ↦ hs _ _ _ hLM (hl a ha)

/-- An argument is good as soon as it has its number if all that it is made from is good. -/
structure Inherited (good : Register Argument → Argument → Prop) : Prop where
  enduring : Enduring good
  step : ∀ {L : Register Argument} {a : Argument}, a.EnteredIn L → (∀ b ∈ a.subs, good L b) →
    good L a

theorem inherited_enteredIn : Inherited Argument.EnteredIn :=
  ⟨enduring_enteredIn, fun h _ ↦ h⟩

theorem evaluated_registers (hgood : Inherited good) (goal : Term) :
    (Flow.evaluated p goal s).Registers good L :=
  fun M _ id _ ↦ ⟨_, .pure (hgood.step (M.enter_self id _) fun b hb ↦ by cases hb)⟩

theorem lists_registers (hs : Enduring good) {arguments : Substitution → Term → Flow Argument}
    {es : List Term} {l : ArgumentList} (hl : ListOf good L l)
    (h : ∀ u e M, (arguments u e).Registers good M) :
    (lists arguments es l).Registers (ListOf good) L := by
  induction es generalizing L l with
  | nil => exact .pure hl
  | cons e es ih =>
    refine (h _ e L).bind hs fun M a hLM ha ↦ ih fun b hb ↦ ?_
    rcases List.mem_append.mp hb with hb | hb
    · exact hs _ _ _ hLM (hl b hb)
    · rw [List.mem_singleton.mp hb]
      exact ha

theorem conclude_registers (hgood : Inherited good) (r : Rule) {l : ArgumentList}
    (hl : ListOf good L l) : (t.conclude p r l).Registers good L := by
  unfold conclude
  dsimp only
  split
  · intro M hLM id hid
    refine ⟨_, .pure (hgood.step (M.enter_self id _) fun b hb ↦ ?_)⟩
    exact hgood.enduring _ _ _ (Register.le_trans hLM (Register.le_enter hid _)) (hl b hb)
  · trivial

theorem settle_registers (hgood : Inherited good) {lookup attempt : Term → Flow Argument}
    {goal : Term} (hlookup : ∀ literal, (lookup literal).Registers good L)
    (hattempt : ∀ inner, (attempt inner).Registers good L) :
    (settle lookup attempt p s goal).Registers good L := by
  unfold settle
  split
  · trivial
  · exact evaluated_registers hgood _
  · exact hlookup _
  · exact (hattempt _).ifEmpty fun M _ ↦ evaluated_registers hgood _
  · split
    · exact evaluated_registers hgood _
    · trivial
    · split
      · exact hlookup _
      · trivial

theorem beyond_registers (hgood : Inherited good) (n : ℕ) (goal : Term) :
    (beyond n p s goal).Registers good L := by
  induction n generalizing p goal with
  | zero => trivial
  | succ n ih => exact settle_registers hgood (fun _ ↦ trivial) fun inner ↦ ih _

/-- Each number that the search for a goal takes is given to one argument. -/
theorem solve_registers (hgood : Inherited good) (levels : ℕ) (p : Position) (s : Substitution)
    (goal : Term) (L : Register Argument) : (t.solve levels p s goal).Registers good L := by
  induction levels generalizing p s goal L with
  | zero => exact beyond_registers hgood _ goal
  | succ levels ih =>
    refine settle_registers hgood (fun literal ↦ ?_) fun inner ↦ ih _ s _ L
    split
    · trivial
    refine .concat fun r _ M _ ↦ ?_
    unfold byRule
    split
    · trivial
    intro base
    dsimp only
    split
    · trivial
    · refine (lists_registers hgood.enduring (fun b hb ↦ ?_) fun u e N ↦ ih _ u _ N).bind
        (enduring_listOf hgood.enduring) fun N l _ hl ↦ conclude_registers hgood _ hl
      cases hb

theorem arguments_registers (t : Theory) (m : Threshold) (e : Term) (L : Register Argument) :
    (t.arguments m e).Registers Argument.EnteredIn L :=
  solve_registers inherited_enteredIn _ _ _ _ L

theorem listsUnder_registers (hgood : Inherited good) (t : Theory) (m : Threshold) (es : List Term)
    (s : Substitution) (L : Register Argument) :
    (lists (t.argumentsUnder · m ·) es (.empty s)).Registers (ListOf good) L :=
  lists_registers hgood.enduring (fun b hb ↦ by cases hb) fun _ _ M ↦
    solve_registers hgood _ _ _ _ M

theorem argumentLists_registers (t : Theory) (m : Threshold) (es : List Term)
    (L : Register Argument) : (t.argumentLists m es).Registers ListEntered L :=
  t.listsUnder_registers inherited_enteredIn m es .empty L

end Theory

end Argumentation
