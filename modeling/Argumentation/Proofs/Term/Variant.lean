import Mathlib
import Argumentation.Proofs.Term.Binding
import Argumentation.Rule.Basic

namespace Argumentation

namespace Number

theorem same_symm {m n : Number} (h : m.same n = true) : n.same m = true := by
  cases m with
  | int a =>
    cases n with
    | int b => exact PartialEquivBEq.symm h
    | float y => cases h
  | float x =>
    cases n with
    | int b => cases h
    | float y => exact PartialEquivBEq.symm h

theorem same_trans {m n k : Number} (h : m.same n = true) (h' : n.same k = true) :
    m.same k = true := by
  cases m with
  | int a =>
    cases n with
    | int b =>
      cases k with
      | int c => exact PartialEquivBEq.trans h h'
      | float z => cases h'
    | float y => cases h
  | float x =>
    cases n with
    | int b => cases h
    | float y =>
      cases k with
      | int c => cases h'
      | float z => exact PartialEquivBEq.trans h h'

end Number

namespace Pairing

variable {p q : Pairing} {v w : Variable}

def OneToOne (p : Pairing) : Prop :=
  Relator.BiUnique fun v w ↦ (v, w) ∈ p

theorem OneToOne.image? (hp : p.OneToOne) : p.image? v = some w ↔ (v, w) ∈ p := by
  rw [Pairing.image?, Option.map_eq_some_iff]
  constructor
  · rintro ⟨⟨v', w'⟩, hfound, rfl⟩
    have hv : v' = v := by simpa using List.find?_some hfound
    exact hv ▸ List.mem_of_find?_eq_some hfound
  · intro h
    obtain ⟨⟨v', w'⟩, hfound⟩ := Option.isSome_iff_exists.mp
      (List.find?_isSome (p := (·.1 == v)).mpr ⟨(v, w), h, beq_self_eq_true v⟩)
    have hv : v' = v := by simpa using List.find?_some hfound
    subst hv
    exact ⟨_, hfound, hp.2 (List.mem_of_find?_eq_some hfound) h⟩

theorem OneToOne.preimage? (hp : p.OneToOne) : p.preimage? w = some v ↔ (v, w) ∈ p := by
  rw [Pairing.preimage?, Option.map_eq_some_iff]
  constructor
  · rintro ⟨⟨v', w'⟩, hfound, rfl⟩
    have hw : w' = w := by simpa using List.find?_some hfound
    exact hw ▸ List.mem_of_find?_eq_some hfound
  · intro h
    obtain ⟨⟨v', w'⟩, hfound⟩ := Option.isSome_iff_exists.mp
      (List.find?_isSome (p := (·.2 == w)).mpr ⟨(v, w), h, beq_self_eq_true w⟩)
    have hw : w' = w := by simpa using List.find?_some hfound
    subst hw
    exact ⟨_, hfound, hp.1 (List.mem_of_find?_eq_some hfound) h⟩

theorem OneToOne.pair (hp : p.OneToOne) (h : p.pair v w = some q) :
    q.OneToOne ∧ (v, w) ∈ q ∧ ∀ x ∈ p, x ∈ q := by
  rw [Pairing.pair] at h
  split at h
  · rename_i w' v' himage hpreimage
    split at h
    · rename_i heq
      cases h
      exact ⟨hp, heq.1 ▸ hp.image?.mp himage, fun _ hx ↦ hx⟩
    · cases h
  · rename_i himage hpreimage
    cases h
    have hv (w' : Variable) : (v, w') ∉ p := fun hmem ↦ by
      rw [hp.image?.mpr hmem] at himage
      cases himage
    have hw (v' : Variable) : (v', w) ∉ p := fun hmem ↦ by
      rw [hp.preimage?.mpr hmem] at hpreimage
      cases hpreimage
    refine ⟨⟨fun a c b ha hc ↦ ?_, fun a b c hb hc ↦ ?_⟩, .head _, fun _ hx ↦ .tail _ hx⟩
    · rcases List.mem_cons.mp ha with ha | ha <;> rcases List.mem_cons.mp hc with hc | hc
      · cases ha
        cases hc
        rfl
      · cases ha
        exact absurd hc (hw c)
      · cases hc
        exact absurd ha (hw a)
      · exact hp.1 ha hc
    · rcases List.mem_cons.mp hb with hb | hb <;> rcases List.mem_cons.mp hc with hc | hc
      · cases hb
        cases hc
        rfl
      · cases hb
        exact absurd hc (hv c)
      · cases hc
        exact absurd hb (hv b)
      · exact hp.2 hb hc
  · cases h

theorem pair_of_related {R : Variable → Variable → Prop} (hR : Relator.BiUnique R)
    (hp : ∀ x ∈ p, R x.1 x.2) (h : R v w) :
    ∃ q, p.pair v w = some q ∧ ∀ x ∈ q, R x.1 x.2 := by
  have honeToOne : p.OneToOne := ⟨fun _ _ _ ha hc ↦ hR.1 (hp _ ha) (hp _ hc),
    fun _ _ _ hb hc ↦ hR.2 (hp _ hb) (hp _ hc)⟩
  rw [Pairing.pair]
  cases himage : p.image? v with
  | some w' =>
    have hmem := honeToOne.image?.mp himage
    have hw : w' = w := hR.2 (hp _ hmem) h
    subst hw
    rw [honeToOne.preimage?.mpr hmem]
    exact ⟨p, if_pos ⟨rfl, rfl⟩, hp⟩
  | none =>
    cases hpreimage : p.preimage? w with
    | some v' =>
      have hmem := honeToOne.preimage?.mp hpreimage
      have hv : v' = v := hR.1 (hp _ hmem) h
      subst hv
      rw [honeToOne.image?.mpr hmem] at himage
      cases himage
    | none =>
      refine ⟨_, rfl, fun x hx ↦ ?_⟩
      rcases List.mem_cons.mp hx with rfl | hx
      · exact h
      · exact hp x hx

end Pairing

namespace Term

variable {R S : Variable → Variable → Prop} {t u : Term} {xs ys : List Term} {p q : Pairing}

inductive Turns (R : Variable → Variable → Prop) : Term → Term → Prop where
  | var {v w : Variable} (h : R v w) : Turns R (var v) (var w)
  | num {m n : Number} (h : m.same n = true) : Turns R (num m) (num n)
  | app (g : Symbol) {xs ys : List Term} (h : List.Forall₂ (Turns R) xs ys) :
    Turns R (app g xs) (app g ys)

theorem Turns.mono (hRS : ∀ v w, R v w → S v w) (h : t.Turns R u) : t.Turns S u := by
  induction t using Term.induction generalizing u with
  | var v =>
    cases h with
    | var h => exact .var (hRS _ _ h)
  | num m =>
    cases h with
    | num h => exact .num h
  | app g xs ih =>
    cases h with
    | app g h =>
      exact .app g (forall₂_imp h ih)

theorem Turns.symm (h : t.Turns R u) : u.Turns (fun v w ↦ R w v) t := by
  induction t using Term.induction generalizing u with
  | var v =>
    cases h with
    | var h => exact .var h
  | num m =>
    cases h with
    | num h => exact .num (Number.same_symm h)
  | app g xs ih =>
    cases h with
    | app g h =>
      have hback : List.Forall₂ (fun x (y : Term) ↦ y.Turns (fun v w ↦ R w v) x) xs _ :=
        forall₂_imp h ih
      exact .app g hback.flip

theorem Turns.trans {r : Term} (h : t.Turns R u) (h' : u.Turns S r) :
    t.Turns (Relation.Comp R S) r := by
  induction t using Term.induction generalizing u r with
  | var v =>
    cases h with
    | var h =>
      cases h' with
      | var h' => exact .var ⟨_, h, h'⟩
  | num m =>
    cases h with
    | num h =>
      cases h' with
      | num h' => exact .num (Number.same_trans h h')
  | app g xs ih =>
    cases h with
    | app g h =>
      cases h' with
      | app g h' => exact .app g (forall₂_trans h h' fun x hx _ _ ↦ ih x hx)

theorem turns_of_pairAll
    (hxs : ∀ x ∈ xs, ∀ {y p q}, Pairing.OneToOne p → pairWith x y p = some q →
      q.OneToOne ∧ (∀ a ∈ p, a ∈ q) ∧ x.Turns (fun v w ↦ (v, w) ∈ q) y)
    (hp : p.OneToOne) (h : pairAll xs ys p = some q) :
    q.OneToOne ∧ (∀ a ∈ p, a ∈ q) ∧ List.Forall₂ (Turns fun v w ↦ (v, w) ∈ q) xs ys := by
  induction xs generalizing ys p with
  | nil =>
    cases ys with
    | nil =>
      cases h
      exact ⟨hp, fun _ ha ↦ ha, .nil⟩
    | cons y ys => cases h
  | cons x xs ih =>
    cases ys with
    | nil => cases h
    | cons y ys =>
      rw [pairAll] at h
      obtain ⟨o, ho, hrest⟩ := Option.bind_eq_some_iff.mp h
      obtain ⟨honeToOne, hpo, hx⟩ := hxs x (.head _) hp ho
      obtain ⟨hq, hoq, hrest⟩ := ih (fun z hz ↦ hxs z (.tail _ hz)) honeToOne hrest
      exact ⟨hq, fun a ha ↦ hoq a (hpo a ha), .cons (hx.mono fun _ _ ↦ hoq _) hrest⟩

theorem turns_of_pairWith (hp : p.OneToOne) (h : pairWith t u p = some q) :
    q.OneToOne ∧ (∀ a ∈ p, a ∈ q) ∧ t.Turns (fun v w ↦ (v, w) ∈ q) u := by
  induction t using Term.induction generalizing u p q with
  | var v =>
    cases u <;> simp only [pairWith, reduceCtorEq] at h
    obtain ⟨hq, hmem, hpq⟩ := hp.pair h
    exact ⟨hq, hpq, .var hmem⟩
  | num m =>
    cases u <;> simp only [pairWith, reduceCtorEq, Option.ite_none_right_eq_some] at h
    obtain ⟨hsame, h⟩ := h
    cases h
    exact ⟨hp, fun _ ha ↦ ha, .num hsame⟩
  | app g xs ih =>
    cases u <;> simp only [pairWith, reduceCtorEq, Option.ite_none_right_eq_some] at h
    obtain ⟨rfl, h⟩ := h
    obtain ⟨hq, hpq, hxs⟩ := turns_of_pairAll (fun x hx ↦ ih x hx) hp h
    exact ⟨hq, hpq, .app g hxs⟩

theorem pairAll_of_turns
    (hxs : ∀ x ∈ xs, ∀ {y p}, (∀ a ∈ p, R a.1 a.2) → x.Turns R y →
      ∃ q, pairWith x y p = some q ∧ ∀ a ∈ q, R a.1 a.2)
    (hp : ∀ a ∈ p, R a.1 a.2) (h : List.Forall₂ (Turns R) xs ys) :
    ∃ q, pairAll xs ys p = some q ∧ ∀ a ∈ q, R a.1 a.2 := by
  induction h generalizing p with
  | nil => exact ⟨p, rfl, hp⟩
  | cons hx _ ih =>
    obtain ⟨o, ho, hrelated⟩ := hxs _ (.head _) hp hx
    obtain ⟨q, hq, hrelated⟩ := ih (fun z hz ↦ hxs z (.tail _ hz)) hrelated
    exact ⟨q, by rw [pairAll, ho, Option.bind_some, hq], hrelated⟩

theorem pairWith_of_turns (hR : Relator.BiUnique R) (hp : ∀ a ∈ p, R a.1 a.2)
    (h : t.Turns R u) : ∃ q, pairWith t u p = some q ∧ ∀ a ∈ q, R a.1 a.2 := by
  induction t using Term.induction generalizing u p with
  | var v =>
    cases h with
    | var h => exact Pairing.pair_of_related hR hp h
  | num m =>
    cases h with
    | num h => exact ⟨p, by rw [pairWith, if_pos h], hp⟩
  | app g xs ih =>
    cases h with
    | app g h =>
      obtain ⟨q, hq, hrelated⟩ := pairAll_of_turns (fun x hx ↦ ih x hx) hp h
      exact ⟨q, by rw [pairWith, if_pos rfl, hq], hrelated⟩

theorem oneToOne_nil : Pairing.OneToOne [] := by
  constructor <;> intro _ _ _ h <;> cases h

/-- Lists of terms are paired exactly if a one-to-one relation turns one into the other. -/
theorem isSome_pairAll : (pairAll xs ys []).isSome = true ↔
    ∃ R, Relator.BiUnique R ∧ List.Forall₂ (Turns R) xs ys := by
  rw [Option.isSome_iff_exists]
  constructor
  · rintro ⟨q, hq⟩
    obtain ⟨honeToOne, -, hxs⟩ := turns_of_pairAll (fun _ _ ↦ turns_of_pairWith) oneToOne_nil hq
    exact ⟨_, honeToOne, hxs⟩
  · rintro ⟨R, hR, hxs⟩
    obtain ⟨q, hq, -⟩ := pairAll_of_turns (p := []) (fun _ _ ↦ pairWith_of_turns hR)
      (fun _ ha ↦ by cases ha) hxs
    exact ⟨q, hq⟩

theorem isSome_pairAll_symm (h : (pairAll xs ys []).isSome = true) :
    (pairAll ys xs []).isSome = true := by
  obtain ⟨R, hR, hturns⟩ := isSome_pairAll.mp h
  refine isSome_pairAll.mpr ⟨fun v w ↦ R w v, ⟨?_, ?_⟩, ?_⟩
  · exact fun _ _ _ ha hb ↦ hR.2 ha hb
  · exact fun _ _ _ ha hb ↦ hR.1 ha hb
  · exact hturns.flip.imp fun _ _ ht ↦ ht.symm

theorem isSome_pairAll_trans {zs : List Term} (h : (pairAll xs ys []).isSome = true)
    (h' : (pairAll ys zs []).isSome = true) : (pairAll xs zs []).isSome = true := by
  obtain ⟨R, hR, hturns⟩ := isSome_pairAll.mp h
  obtain ⟨S, hS, hturns'⟩ := isSome_pairAll.mp h'
  refine isSome_pairAll.mpr ⟨Relation.Comp R S, ⟨?_, ?_⟩, ?_⟩
  · rintro v w y ⟨a, hva, hay⟩ ⟨b, hwb, hby⟩
    rw [hS.1 hay hby] at hva
    exact hR.1 hva hwb
  · rintro v w y ⟨a, hva, haw⟩ ⟨b, hvb, hby⟩
    rw [hR.2 hva hvb] at haw
    exact hS.2 haw hby
  · exact forall₂_trans hturns hturns' fun _ _ _ _ ↦ Turns.trans

theorem isVariant_eq_pairAll (t u : Term) : t.isVariant u = (pairAll [t] [u] []).isSome := by
  rw [isVariant, pairAll]
  cases pairWith t u [] <;> rfl

theorem isVariant_symm (h : t.isVariant u = true) : u.isVariant t = true := by
  rw [isVariant_eq_pairAll] at h ⊢
  exact isSome_pairAll_symm h

theorem isVariant_trans {x : Term} (h : t.isVariant u = true) (h' : u.isVariant x = true) :
    t.isVariant x = true := by
  rw [isVariant_eq_pairAll] at h h' ⊢
  exact isSome_pairAll_trans h h'

end Term

namespace Rule

variable {r s x : Rule}

theorem isVariant_iff : r.isVariant s = true ↔ ∃ R, Relator.BiUnique R ∧
    List.Forall₂ (Term.Turns R) (r.consequent :: r.antecedent) (s.consequent :: s.antecedent) :=
  Term.isSome_pairAll

theorem isVariant_symm (h : r.isVariant s = true) : s.isVariant r = true :=
  Term.isSome_pairAll_symm h

theorem isVariant_comm : r.isVariant s = s.isVariant r :=
  Bool.eq_iff_iff.mpr ⟨isVariant_symm, isVariant_symm⟩

theorem isVariant_trans (h : r.isVariant s = true) (h' : s.isVariant x = true) :
    r.isVariant x = true :=
  Term.isSome_pairAll_trans h h'

theorem similar_of_isVariant (h : r.isVariant s = true) :
    r.consequent.predicate? = s.consequent.predicate? ∧
      r.antecedent.length = s.antecedent.length := by
  obtain ⟨R, -, hturns⟩ := isVariant_iff.mp h
  obtain ⟨hconsequent, hantecedent⟩ := List.forall₂_cons.mp hturns
  refine ⟨?_, hantecedent.length_eq⟩
  revert hconsequent
  generalize r.consequent = t
  generalize s.consequent = u
  intro h
  cases h with
  | var => rfl
  | num => rfl
  | app g h => cases g <;> simp [Term.predicate?, h.length_eq]

end Rule

end Argumentation
