import Argumentation.Proofs.Argument.Denials
import Argumentation.Proofs.Argument.Renumbering
import Argumentation.Proofs.Dialogue.Memory

namespace Argumentation

namespace Argument

theorem self_mem_subtree (a : Argument) : a ∈ a.subtree :=
  mem_subtree.mpr (.inl rfl)

theorem mem_subtree_of_mem_subs {a n b : Argument} (hn : n ∈ a.subtree) (hb : b ∈ n.subs) :
    b ∈ a.subtree := by
  induction a using Argument.induction with
  | step a ih =>
    rcases mem_subtree.mp hn with rfl | ⟨c, hc, hnc⟩
    · exact mem_subtree.mpr (.inr ⟨b, hb, b.self_mem_subtree⟩)
    · exact mem_subtree.mpr (.inr ⟨c, hc, ih c hc hnc⟩)

end Argument

namespace Proof

variable {p p' p'' : Proof} {a : Argument} {id : ArgumentId}

theorem lookup_filter_ne {β : Type} {k id : ArgumentId} (h : id ≠ k) (l : List (ArgumentId × β)) :
    (l.filter (·.1 != k)).lookup id = l.lookup id := by
  induction l with
  | nil => rfl
  | cons e l ih =>
    obtain ⟨i, x⟩ := e
    rw [List.filter_cons]
    by_cases hi : id = i
    · subst hi
      simp [h]
    · split <;> simp [List.lookup_cons, beq_eq_false_iff_ne.mpr hi, ih]

theorem lookup_replaced {β : Type} (l : List (ArgumentId × β)) (k : ArgumentId) (v : β)
    (id : ArgumentId) :
    ((k, v) :: l.filter (·.1 != k)).lookup id = if id = k then some v else l.lookup id := by
  rw [List.lookup_cons]
  by_cases hk : id = k
  · rw [if_pos hk, beq_iff_eq.mpr hk]
  · rw [if_neg hk, beq_eq_false_iff_ne.mpr hk]
    exact lookup_filter_ne hk l

theorem lookup_setStatus (p : Proof) (a : Argument) (status : Status) (id : ArgumentId) :
    (p.setStatus a status).statuses.lookup id =
      if id = a.id then some status else p.statuses.lookup id :=
  lookup_replaced _ _ _ _

@[simp]
theorem addDefender_arguments (p : Proof) (y z : Argument) :
    (p.addDefender y z).arguments = p.arguments := by
  simp only [addDefender]
  split <;> rfl

@[simp]
theorem addDefender_statuses (p : Proof) (y z : Argument) :
    (p.addDefender y z).statuses = p.statuses := by
  simp only [addDefender]
  split <;> rfl

def defendersWith (p : Proof) (y z : Argument) : List Argument :=
  if (p.defendersFrom y).any (·.id == z.id) then p.defendersFrom y else p.defendersFrom y ++ [z]

theorem lookup_addDefender (p : Proof) (y z : Argument) (id : ArgumentId) :
    (p.addDefender y z).defenders.lookup id =
      if id = y.id then some (p.defendersWith y z) else p.defenders.lookup id := by
  simp only [addDefender, defendersWith]
  split
  · rename_i hknown
    split
    · rename_i hid
      rw [hid]
      -- There are known defenders, so they are listed.
      obtain ⟨w, hw, -⟩ := List.any_eq_true.mp hknown
      unfold defendersFrom at hw ⊢
      cases hl : p.defenders.lookup y.id with
      | some zs => rfl
      | none =>
        rw [hl] at hw
        cases hw
    · rfl
  · exact lookup_replaced _ _ _ _

theorem subset_defendersWith (p : Proof) (y z : Argument) :
    p.defendersFrom y ⊆ p.defendersWith y z := by
  unfold defendersWith
  split
  · exact List.Subset.refl _
  · exact List.subset_append_left _ _

theorem mem_defendersWith {y z w : Argument} (h : w ∈ p.defendersWith y z) :
    w ∈ p.defendersFrom y ∨ w = z := by
  unfold defendersWith at h
  split at h
  · exact .inl h
  · simpa using h

theorem exists_mem_defendersWith (p : Proof) (y z : Argument) :
    ∃ w ∈ p.defendersWith y z, w.id = z.id := by
  unfold defendersWith
  split
  · rename_i hknown
    obtain ⟨w, hw, hid⟩ := List.any_eq_true.mp hknown
    exact ⟨w, hw, beq_iff_eq.mp hid⟩
  · exact ⟨z, by simp, rfl⟩

def Mentions (p : Proof) (id : ArgumentId) : Prop :=
  ∃ b ∈ p.arguments, b.id = id

/-- The second proof has the arguments of the first one, and those of the list as far as their
numbers are new. -/
structure Enters (p : Proof) (nodes : List Argument) (p' : Proof) : Prop where
  kept : p.arguments ⊆ p'.arguments
  new : ∀ b ∈ p'.arguments, b ∈ p.arguments ∨ b ∈ nodes
  mentions : ∀ n ∈ nodes, p'.Mentions n.id
  distinct : (p.arguments.map (·.id)).Nodup → (p'.arguments.map (·.id)).Nodup
  statuses : p'.statuses = p.statuses
  attackers : p'.attackers = p.attackers
  defenders : p'.defenders = p.defenders

theorem Enters.refl (p : Proof) : p.Enters [] p :=
  ⟨List.Subset.refl _, fun _ hb ↦ .inl hb, by simp, id, rfl, rfl, rfl⟩

theorem Mentions.mono (h : p.Mentions id) (hsub : p.arguments ⊆ p'.arguments) : p'.Mentions id := by
  obtain ⟨b, hb, hid⟩ := h
  exact ⟨b, hsub hb, hid⟩

theorem Enters.trans {ns ms : List Argument} (h : p.Enters ns p') (h' : p'.Enters ms p'') :
    p.Enters (ns ++ ms) p'' where
  kept := List.Subset.trans h.kept h'.kept
  new b hb := by
    rcases h'.new b hb with hb | hb
    · exact (h.new b hb).imp_right (List.mem_append_left ms)
    · exact .inr (List.mem_append_right ns hb)
  mentions n hn := by
    rcases List.mem_append.mp hn with hn | hn
    · exact (h.mentions n hn).mono h'.kept
    · exact h'.mentions n hn
  distinct hp := h'.distinct (h.distinct hp)
  statuses := h'.statuses.trans h.statuses
  attackers := h'.attackers.trans h.attackers
  defenders := h'.defenders.trans h.defenders

theorem enters_node (p : Proof) (n : Argument) : p.Enters [n]
    (if p.contains n then p else { p with arguments := p.arguments ++ [n] }) := by
  split
  · rename_i hcontains
    obtain ⟨b, hb, hid⟩ := List.any_eq_true.mp hcontains
    exact ⟨List.Subset.refl _, fun _ hb ↦ .inl hb,
      by simpa using ⟨b, hb, beq_iff_eq.mp hid⟩, id, rfl, rfl, rfl⟩
  · rename_i hcontains
    refine ⟨List.subset_append_left _ _, fun b hb ↦ List.mem_append.mp hb, ?_, fun hp ↦ ?_,
      rfl, rfl, rfl⟩
    · simpa using ⟨n, by simp, rfl⟩
    · rw [List.map_append, List.map_singleton]
      refine List.nodup_append.mpr ⟨hp, by simp, fun i hi j hj heq ↦ hcontains ?_⟩
      obtain ⟨b, hb, rfl⟩ := List.mem_map.mp hi
      exact List.any_eq_true.mpr ⟨b, hb, beq_iff_eq.mpr (heq.trans (List.mem_singleton.mp hj))⟩

theorem record_enters (p : Proof) (a : Argument) : p.Enters a.subtree (p.record a) := by
  unfold record
  generalize a.subtree = nodes
  induction nodes generalizing p with
  | nil => exact .refl p
  | cons n nodes ih => exact (p.enters_node n).trans (ih _)

theorem foldl_record_enters (p : Proof) (as : List Argument) :
    p.Enters (as.flatMap Argument.subtree) (as.foldl record p) := by
  induction as generalizing p with
  | nil => exact .refl p
  | cons a as ih => exact (p.record_enters a).trans (ih _)

/-- No number is given to two arguments of the proof, and it has the sub-arguments of each. -/
structure Closed (p : Proof) : Prop where
  distinct : (p.arguments.map (·.id)).Nodup
  subs : ∀ a ∈ p.arguments, ∀ b ∈ a.subs, p.Mentions b.id

theorem Closed.empty : empty.Closed :=
  ⟨.nil, by simp [Proof.empty]⟩

theorem Closed.enters {as : List Argument} (h : p.Closed)
    (henters : p.Enters (as.flatMap Argument.subtree) p') : p'.Closed where
  distinct := henters.distinct h.distinct
  subs a ha b hb := by
    rcases henters.new a ha with ha | ha
    · exact (h.subs a ha b hb).mono henters.kept
    · obtain ⟨c, hc, hac⟩ := List.mem_flatMap.mp ha
      exact henters.mentions b
        (List.mem_flatMap.mpr ⟨c, hc, Argument.mem_subtree_of_mem_subs hac hb⟩)

theorem Closed.congr (h : p.Closed) (harguments : p'.arguments = p.arguments) : p'.Closed := by
  refine ⟨harguments ▸ h.distinct, fun a ha b hb ↦ ?_⟩
  rw [harguments] at ha
  exact (h.subs a ha b hb).mono (by rw [harguments]; exact List.Subset.refl _)

/-- Nothing that the first proof says is missing in the second one, except that the verdict on an
argument may have been changed. -/
structure Grows (p p' : Proof) : Prop where
  arguments : p.arguments ⊆ p'.arguments
  attackers : ∀ id found, p.attackers.lookup id = some found → p'.attackers.lookup id = some found
  statuses : ∀ id, (p.statuses.lookup id).isSome → (p'.statuses.lookup id).isSome
  defenders : ∀ id zs, p.defenders.lookup id = some zs →
    ∃ zs', p'.defenders.lookup id = some zs' ∧ zs ⊆ zs'

theorem Grows.refl (p : Proof) : p.Grows p :=
  ⟨List.Subset.refl _, fun _ _ h ↦ h, fun _ h ↦ h, fun _ zs h ↦ ⟨zs, h, List.Subset.refl _⟩⟩

theorem Grows.trans (h : p.Grows p') (h' : p'.Grows p'') : p.Grows p'' where
  arguments := List.Subset.trans h.arguments h'.arguments
  attackers id found hf := h'.attackers id found (h.attackers id found hf)
  statuses id hs := h'.statuses id (h.statuses id hs)
  defenders id zs hzs := by
    obtain ⟨zs', hzs', hsub⟩ := h.defenders id zs hzs
    obtain ⟨zs'', hzs'', hsub'⟩ := h'.defenders id zs' hzs'
    exact ⟨zs'', hzs'', List.Subset.trans hsub hsub'⟩

theorem Grows.setStatus (p : Proof) (a : Argument) (status : Status) :
    p.Grows (p.setStatus a status) := by
  refine ⟨List.Subset.refl _, fun _ _ h ↦ h, fun id h ↦ ?_,
    fun _ zs h ↦ ⟨zs, h, List.Subset.refl _⟩⟩
  rw [lookup_setStatus]
  split
  · rfl
  · exact h

theorem Grows.addDefender (p : Proof) (y z : Argument) : p.Grows (p.addDefender y z) := by
  refine ⟨?_, fun id found h ↦ ?_, fun id h ↦ ?_, fun id zs h ↦ ?_⟩
  · rw [addDefender_arguments]
    exact List.Subset.refl _
  · rw [Search.addDefender_attackers, h]
  · rw [addDefender_statuses]
    exact h
  · rw [lookup_addDefender]
    split
    · rename_i hid
      refine ⟨_, rfl, ?_⟩
      have hsub := p.subset_defendersWith y z
      rwa [defendersFrom, ← hid, h] at hsub
    · exact ⟨zs, h, List.Subset.refl _⟩

theorem Enters.grows {nodes : List Argument} (h : p.Enters nodes p') : p.Grows p' := by
  refine ⟨h.kept, fun id found hf ↦ ?_, fun id hs ↦ ?_, fun id zs hzs ↦ ⟨zs, ?_, ?_⟩⟩
  · rw [h.attackers, hf]
  · rw [h.statuses]
    exact hs
  · rw [h.defenders, hzs]
  · exact List.Subset.refl _

end Proof

namespace Search

variable {arena : Arena} {σ : Session}

/-- What is entered in the record together with the attackers of an argument. -/
theorem looked_proof (arena : Arena) (a : Argument) (σ : Session) : ∃ recorded,
    σ.proof.Enters (((arena.findAttackers a σ.supply).1.successful.map (·.attacker)).flatMap
      Argument.subtree) recorded ∧
    (looked arena a σ).proof = { recorded with
      attackers := (a.id, (arena.findAttackers a σ.supply).1) :: recorded.attackers } := by
  refine ⟨_, Proof.foldl_record_enters σ.proof _, ?_⟩
  rw [List.foldl_map]
  rfl

theorem lookup_looked (a : Argument) (σ : Session) (id : ArgumentId) :
    (looked arena a σ).proof.attackers.lookup id =
      if id = a.id then some (arena.findAttackers a σ.supply).1
      else σ.proof.attackers.lookup id := by
  rw [looked_attackers, List.lookup_cons]
  split
  · rename_i heq
    rw [if_pos (beq_iff_eq.mp heq)]
  · rename_i hne
    rw [if_neg (beq_eq_false_iff_ne.mp hne)]

theorem looked_grows {a : Argument} (h : σ.proof.attackers.lookup a.id = none) :
    σ.proof.Grows (looked arena a σ).proof := by
  obtain ⟨recorded, henters, hproof⟩ := looked_proof arena a σ
  refine ⟨?_, within_looked h, ?_, ?_⟩
  · rw [hproof]
    exact henters.kept
  · rw [hproof]
    exact henters.grows.statuses
  · rw [hproof]
    exact henters.grows.defenders

end Search

end Argumentation
