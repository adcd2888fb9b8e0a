import Argumentation.Proofs.Dialogue.Casting
import Argumentation.Proofs.Dialogue.Verdicts
import Argumentation.Proofs.RelatedLists

namespace Argumentation

namespace Json

def Lists (j : Json) (key : String) (items : List Json) : Prop :=
  j.field? key = some (.array items)

/-- The fields of a record are those that it was made of, whatever their order. -/
theorem field?_record {fields : List (String × Json)} (h : (fields.map Prod.fst).Nodup)
    {key : String} {v : Json} (hmem : (key, v) ∈ fields) : (record fields).field? key = some v := by
  have hperm : ((fields.mergeSort fun a b ↦ a.1 ≤ b.1).reverse).Perm fields :=
    (List.reverse_perm _).trans (List.mergeSort_perm _ _)
  exact lookup_of_mem_of_nodup ((hperm.map Prod.fst).nodup_iff.mpr h) (hperm.mem_iff.mpr hmem)

theorem lists_record {fields : List (String × Json)} (h : (fields.map Prod.fst).Nodup) {α : Type}
    {f : α → Json} {as : List α} {key : String} (hmem : (key, ofList f as) ∈ fields) :
    (record fields).Lists key (as.map f) :=
  field?_record h hmem

theorem ofNat_injective : Function.Injective ofNat := by
  intro m n h
  exact Int.ofNat.inj (Json.int.inj h)

end Json

structure Proof.Complete (p : Proof) : Prop extends p.Closed where
  attackers : ∀ a, ∀ e ∈ (p.attackersOf a).successful, p.Mentions e.attacker.id
  defenders : ∀ a, ∀ z ∈ p.defendersFrom a, p.Mentions z.id

theorem Stage.Sound.complete {arena : Arena} {S : Stage} (h : S.Sound arena) :
    S.proof.Complete where
  toClosed := h.closed
  attackers a e he := by
    unfold Proof.attackersOf at he
    cases hl : S.proof.attackers.lookup a.id with
    | none =>
      rw [hl] at he
      cases he
    | some found =>
      rw [hl] at he
      obtain ⟨side, b, -, hfound⟩ := h.attackers _ found hl
      exact h.mentions _ _ (hfound e he).1
  defenders a z hz := by
    unfold Proof.defendersFrom at hz
    cases hl : S.proof.defenders.lookup a.id with
    | none =>
      rw [hl] at hz
      cases hz
    | some zs =>
      rw [hl] at hz
      obtain ⟨-, y, -, hzs⟩ := h.defenders _ zs hl
      exact h.mentions _ _ (hzs z hz).1

/-- The proof of an outcome has all arguments that it refers to, and those of the answers. -/
theorem Query.run_complete {q : Query} {moves next : ℕ} {outcome : Outcome}
    (h : q.run moves next = some outcome) : outcome.proof.Complete ∧
      ∀ answer ∈ outcome.answers, ∀ a ∈ answer.arguments, outcome.proof.Mentions a.id := by
  have hkeeps : q.Keeps moves Stage.session (Stage.Ready q.arena) Stage.Follows
      fun S a _ ↦ S.Has .pro a ∧ True :=
    Query.keeps_sides (fun _ _ _ _ _ h ↦ h) fun S a hS ha ↦
      Semantics.defend_upholds _ _ _ hS (.seeded ha)
  obtain ⟨L, S, hready, -, hproof, hjudged⟩ :=
    hkeeps.run rfl (Stage.ready_fresh q.arena next) h
  rw [← hproof]
  refine ⟨hready.sound.complete, fun answer hanswer a ha ↦ ?_⟩
  obtain ⟨-, verdicts, hverdicts, -⟩ := hjudged answer hanswer
  obtain ⟨-, -, hpro, -⟩ := exists_of_forall₂ hverdicts a ha
  exact hready.sound.mentions _ _ hpro

namespace Outcome

/-- No number occurs twice among the entries of the proof in a report, and every number in the
arguments of a result or in the sub-arguments, attackers or defenders of an entry is that of an
entry. -/
theorem report_closed (write : WriteFloat) (q : Query) (moves next : ℕ) (outcome : Outcome)
    (h : q.run moves next = some outcome) :
    ∃ results entries ids, (outcome.report write).Lists "results" results ∧
      (outcome.report write).Lists "proof" entries ∧
      entries.map (·.field? "id") = ids.map some ∧ ids.Nodup ∧
      (∀ result ∈ results, ∃ l, result.Lists "arguments" l ∧ l ⊆ ids) ∧
      ∀ entry ∈ entries, ∀ key ∈ ["sub_arguments", "attackers", "defenders"],
        ∃ l, entry.Lists key l ∧ l ⊆ ids := by
  obtain ⟨hcomplete, hanswers⟩ := Query.run_complete h
  have hids (as : List Argument) (has : ∀ a ∈ as, outcome.proof.Mentions a.id) :
      as.map (fun a ↦ Json.ofNat a.id) ⊆ outcome.proof.arguments.map fun a ↦ .ofNat a.id := by
    intro j hj
    obtain ⟨a, ha, rfl⟩ := List.mem_map.mp hj
    obtain ⟨b, hb, hid⟩ := has a ha
    exact List.mem_map.mpr ⟨b, hb, by rw [hid]⟩
  refine ⟨_, _, outcome.proof.arguments.map fun a ↦ .ofNat a.id,
    Json.lists_record (by simp) (.tail _ (.head _)),
    Json.lists_record (by simp) (.tail _ (.tail _ (.head _))), ?_, ?_, ?_, ?_⟩
  · rw [List.map_map, List.map_map]
    exact List.map_congr_left fun a _ ↦ Json.field?_record (by simp) (.head _)
  · have hnodup := hcomplete.distinct.map Json.ofNat_injective
    rwa [List.map_map] at hnodup
  · intro result hresult
    obtain ⟨answer, hanswer, rfl⟩ := List.mem_map.mp hresult
    exact ⟨_, Json.lists_record (by simp) (.tail _ (.tail _ (.head _))),
      hids _ (hanswers answer hanswer)⟩
  · intro entry hentry key hkey
    obtain ⟨a, ha, rfl⟩ := List.mem_map.mp hentry
    have hlists {as : List Argument} (has : ∀ x ∈ as, outcome.proof.Mentions x.id)
        (hmem : (key, Json.ofList (fun x ↦ .ofNat x.id) as) ∈
          [("sub_arguments", Json.ofList (fun x ↦ .ofNat x.id) a.subs),
            ("attackers", .ofList (fun x ↦ .ofNat x.id)
              ((outcome.proof.attackersOf a).successful.map (·.attacker))),
            ("defenders", .ofList (fun x ↦ .ofNat x.id) (outcome.proof.defendersFrom a))]) :
        ∃ l, (argumentReport write outcome.proof a).Lists key l ∧
          l ⊆ outcome.proof.arguments.map fun a ↦ .ofNat a.id :=
      ⟨_, Json.lists_record (by simp) (List.mem_append_right [_, _, _, _, _] hmem), hids as has⟩
    simp only [List.mem_cons, List.not_mem_nil, or_false] at hkey
    rcases hkey with rfl | rfl | rfl
    · exact hlists (hcomplete.subs a ha) (.head _)
    · refine hlists (fun x hx ↦ ?_) (.tail _ (.head _))
      obtain ⟨e, he, rfl⟩ := List.mem_map.mp hx
      exact hcomplete.attackers a e he
    · exact hlists (hcomplete.defenders a) (.tail _ (.tail _ (.head _)))

/-- The attackers of `~a` in `twoPremises` stand in the report with those of them that answer it. -/
theorem twoPremises_report :
    ∃ outcome, (twoPremises.query .grounded [.const "a"]).run 5 1 = some outcome ∧
      outcome.isAccepted = true ∧ outcome.proof.arguments.length = 8 ∧
    ∃ results entries ids, (outcome.report .float).Lists "results" results ∧
      (outcome.report .float).Lists "proof" entries ∧
      entries.map (·.field? "id") = ids.map some ∧ ids.Nodup ∧
      (∀ result ∈ results, ∃ l, result.Lists "arguments" l ∧ l ⊆ ids) ∧
      ∀ entry ∈ entries, ∀ key ∈ ["sub_arguments", "attackers", "defenders"],
        ∃ l, entry.Lists key l ∧ l ⊆ ids := by
  have hcheck : ((twoPremises.query .grounded [.const "a"]).run 5 1).any (fun outcome ↦
      outcome.isAccepted && outcome.proof.arguments.length = 8) = true := by
    decide +kernel
  obtain ⟨outcome, hrun, houtcome⟩ := (Option.any_eq_true _ _).mp hcheck
  obtain ⟨haccepted, hlength⟩ := Bool.and_eq_true_iff.mp houtcome
  exact ⟨outcome, hrun, haccepted, of_decide_eq_true hlength,
    report_closed .float _ _ _ outcome hrun⟩

end Outcome

end Argumentation
