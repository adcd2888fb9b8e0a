import Argumentation.Proofs.Argument.Ground

namespace Argumentation

namespace Theory

variable {t : Theory}

open Argument (form)

/-- A form of which every node is a number or applies a stored rule, as deep as it stands. -/
inductive Shaped (t : Theory) : Nat → Argument → Prop
  | value (k : Int64) (depth : Nat) : Shaped t depth (numeral (.int k) depth)
  | step {depth : Nat} {r : Rule} {subs : List Argument} : t.store.rule? r.id = some r →
      r.isPlain = true → r.consequent.isLiteral = true → (∀ b ∈ subs, Shaped t (depth + 1) b) →
      Shaped t depth ⟨0, r, .empty, subs, t.valuation.strength r subs, depth⟩

/-- The forms for a goal conclude it, and their nodes are shaped as the store has it. -/
theorem shaped_of_mem_forms (hground : t.store.IsGround) {levels : Nat} {p : Position} {goal : Term}
    (hgoal : IsGoal goal) {a : Argument} (h : a ∈ t.forms levels p goal) :
    t.Shaped p.depth a ∧ a.claim = goal := by
  induction levels using Nat.strongRecOn generalizing p goal a with
  | ind levels ih =>
    rcases mem_forms.mp h with ⟨n, rfl, rfl⟩ | ⟨l, r, subs, rfl, hlit, -, hr, -, hsame, hsubs, ha⟩
    · rcases hgoal with hplain | ⟨hlit, -⟩
      · cases n with
        | int k => exact ⟨.value k _, rfl⟩
        | float x => cases hplain
      · cases hlit
    · have hrule := RuleStore.rule?_of_mem_candidates hr
      have hplain := hground r (RuleStore.mem_of_rule? hrule)
      obtain ⟨hc, hbody, -⟩ := Rule.isPlain_iff.mp hplain
      have heq : r.consequent = goal := (Term.same_iff_of_plain _ goal hc).mp hsame
      obtain ⟨-, rfl⟩ := mem_concluded.mp ha
      refine ⟨.step hrule hplain (heq ▸ hlit) fun b hb ↦ ?_, ?_⟩
      · obtain ⟨e, he, hbe⟩ := exists_of_mem_choices hsubs b hb
        exact (ih l (Nat.lt_succ_self l) (.inl (Term.arePlain_iff.mp hbody e he)) hbe).1
      · rw [Argument.claim, Substitution.apply_of_plain _ hc, heq]

theorem Shaped.form_eq {depth : Nat} {a : Argument} (h : t.Shaped depth a) : a.form = a := by
  induction h with
  | value k depth => rfl
  | step _ _ _ _ ih =>
    rw [form, Argument.formAll_eq_map, List.map_congr_left ih, List.map_id']

theorem Shaped.subs {depth : Nat} {a : Argument} (h : t.Shaped depth a) :
    ∀ b ∈ a.subs, t.Shaped (depth + 1) b := by
  cases h with
  | value k => simp [numeral]
  | step _ _ _ hsubs => exact hsubs

theorem Shaped.claim_isPlain {depth : Nat} {a : Argument} (h : t.Shaped depth a) :
    a.claim.isPlain = true := by
  cases h with
  | value k => rfl
  | step _ hr _ _ =>
    have hc := (Rule.isPlain_iff.mp hr).1
    rw [Argument.claim, Substitution.apply_of_plain _ hc]
    exact hc

/-- At one depth a shaped form is given by its rule, its claim and its sub-arguments. -/
theorem Shaped.eq_of_rule {depth : Nat} {a b : Argument} (ha : t.Shaped depth a)
    (hb : t.Shaped depth b) (hrule : a.rule.id = b.rule.id)
    (hclaim : a.claim.isVariant b.claim = true) (hsubs : a.subs = b.subs) : a = b := by
  have hvalue (k : Int64) : (numeral (.int k) depth).claim = .num (.int k) := rfl
  have hplain {r : Rule} (hr : r.isPlain = true) (subs : List Argument) (x : Degree) :
      (Argument.mk 0 r .empty subs x depth).claim = r.consequent :=
    Substitution.apply_of_plain _ (Rule.isPlain_iff.mp hr).1
  cases ha with
  | value k =>
    rw [hvalue, Term.isVariant_iff_of_plain rfl] at hclaim
    cases hb with
    | value j =>
      rw [hvalue] at hclaim
      rw [Number.int.inj (Term.num.inj hclaim)]
    | step _ hr hlit _ =>
      rw [hplain hr] at hclaim
      rw [← hclaim] at hlit
      cases hlit
  | step hid hr hlit _ =>
    rw [hplain hr, Term.isVariant_iff_of_plain (Rule.isPlain_iff.mp hr).1] at hclaim
    cases hb with
    | value j =>
      rw [hclaim, hvalue] at hlit
      cases hlit
    | step hid' _ _ _ =>
      simp only at hrule hsubs
      rw [hrule, hid'] at hid
      cases hid
      rw [hsubs]

end Theory

namespace Argument

theorem isSimilar_eq (a b : Argument) :
    a.isSimilar b = (a.id == b.id || (a.rule.id == b.rule.id && a.subs.length == b.subs.length &&
      a.claim.isVariant b.claim && areSimilar a.subs b.subs)) := by
  cases a
  rfl

section Similarity

variable {t : Theory} {L : Ledger}

theorem isSimilar_iff_of_subs {a b : Argument} {depth : Nat} (ha : t.Shaped depth a.form)
    (hb : t.Shaped depth b.form) (hna : a.NumberedBy L) (hnb : b.NumberedBy L)
    (hsubs : a.subs.length = b.subs.length →
      (areSimilar a.subs b.subs = true ↔ formAll a.subs = formAll b.subs)) :
    a.isSimilar b = true ↔ a.form = b.form := by
  obtain ⟨-, hea, -⟩ := hna
  obtain ⟨-, heb, -⟩ := hnb
  simp only [formAll_eq_map, ← form_subs] at hsubs
  simp only [isSimilar_eq, Bool.or_eq_true, Bool.and_eq_true, beq_iff_eq]
  constructor
  · rintro (hid | ⟨⟨⟨hrule, hlen⟩, hclaim⟩, hsim⟩)
    · rw [← hea, ← heb, hid]
    · refine ha.eq_of_rule hb ?_ ?_ ((hsubs hlen).mp hsim)
      · rw [form_rule, form_rule, hrule]
      · rw [form_claim, form_claim, hclaim]
  · intro h
    have hlen : a.subs.length = b.subs.length := by
      simpa only [form_subs, List.length_map] using congrArg (·.subs.length) h
    refine .inr ⟨⟨⟨?_, hlen⟩, ?_⟩, (hsubs hlen).mpr (congrArg (·.subs) h)⟩
    · simpa only [form_rule] using congrArg (·.rule.id) h
    · rw [← b.form_claim, ← h, a.form_claim, Term.isVariant_iff_of_plain]
      exact a.form_claim ▸ ha.claim_isPlain

mutual

theorem isSimilar_iff :
    ∀ (a b : Argument) (depth : Nat), t.Shaped depth a.form → t.Shaped depth b.form →
      a.NumberedBy L → b.NumberedBy L → (a.isSimilar b = true ↔ a.form = b.form)
  | ⟨_, _, _, subs, _, _⟩, b, depth, ha, hb, hna, hnb => by
    refine isSimilar_iff_of_subs ha hb hna hnb fun hlen ↦
      areSimilar_iff subs b.subs (depth + 1) hlen (fun c hc ↦ ?_) (fun c hc ↦ ?_)
    · exact ⟨ha.subs _ (by rw [form_subs]; exact List.mem_map_of_mem hc), hna.subs c hc⟩
    · exact ⟨hb.subs _ (by rw [form_subs]; exact List.mem_map_of_mem hc), hnb.subs c hc⟩

theorem areSimilar_iff :
    ∀ (as bs : List Argument) (depth : Nat), as.length = bs.length →
      (∀ a ∈ as, t.Shaped depth a.form ∧ a.NumberedBy L) →
      (∀ b ∈ bs, t.Shaped depth b.form ∧ b.NumberedBy L) →
      (areSimilar as bs = true ↔ formAll as = formAll bs)
  | [], [], _, _, _, _ => by simp [areSimilar, formAll]
  | a :: as, b :: bs, depth, hlen, ha, hb => by
    obtain ⟨ha₁, ha₂⟩ := ha a (.head _)
    obtain ⟨hb₁, hb₂⟩ := hb b (.head _)
    simp only [areSimilar, formAll, Bool.and_eq_true, List.cons.injEq]
    rw [isSimilar_iff a b depth ha₁ hb₁ ha₂ hb₂, areSimilar_iff as bs depth (Nat.succ.inj hlen)
      (fun c hc ↦ ha c (.tail _ hc)) (fun c hc ↦ hb c (.tail _ hc))]

end

end Similarity

end Argument

end Argumentation
