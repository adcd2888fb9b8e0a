import Argumentation.Proofs.Dialogue.Evaluations
import Argumentation.Proofs.Preferred.Explanation

namespace Argumentation

namespace Stage

variable {arena : Arena} {L : Register Argument} {S T : Stage} {a : Argument}

def Follows (S T : Stage) : Prop :=
  S.cast ≤ T.cast ∧ S.proof.Grows T.proof

theorem Leads.follows (h : S.Leads T) : S.Follows T :=
  ⟨h.cast, h.record⟩

/-- A sound stage in which the drawn arguments are on no side or on that of the proponent. -/
structure Ready (arena : Arena) (L : Register Argument) (S : Stage) : Prop where
  sound : S.Sound arena
  free : ∀ id, S.free ≤ id → L id = none
  drawn : ∀ id a, L id = some a → S.cast id = none ∨ S.cast id = some (.pro, a)

theorem Sound.congr (h : S.Sound arena) (hcast : T.cast = S.cast) (hproof : T.proof = S.proof)
    (hfree : S.free ≤ T.free) : T.Sound arena where
  free id hid := hcast ▸ h.free id (hfree.trans hid)
  closed := hproof ▸ h.closed
  mentions := by rw [hcast, hproof]; exact h.mentions
  attackers := by simpa only [Has, hcast, hproof] using h.attackers
  statuses := by rw [hcast, hproof]; exact h.statuses
  defenders := by simpa only [Has, hcast, hproof] using h.defenders

theorem Ready.lt_free (h : S.Ready arena L) (ha : a.EnteredIn L) : a.id < S.free := by
  by_contra hid
  have hnone := h.free a.id (not_lt.mp hid)
  rw [ha] at hnone
  cases hnone

theorem Ready.takeVariables (h : S.Ready arena L) (n : ℕ) :
    Ready arena L ⟨S.cast, S.session.takeVariables n⟩ :=
  ⟨h.sound.congr rfl rfl (Nat.le_refl _), h.free, h.drawn⟩

theorem Ready.takeArgument (h : S.Ready arena L) (b : Argument) :
    Ready arena (L.enter S.free b) ⟨S.cast, S.session.takeArgument⟩ := by
  refine ⟨h.sound.congr rfl rfl (Nat.le_succ _), (Register.Continues.enter h.free b).free,
    fun id c hc ↦ ?_⟩
  by_cases hid : id = S.free
  · exact .inl (hid ▸ h.sound.free _ (Nat.le_refl _))
  · rw [Register.enter_of_ne hid] at hc
    exact h.drawn id c hc

def seeded (S : Stage) (a : Argument) : Stage where
  cast := S.cast.enter a.id (.pro, a)
  session := { S.session with proof := S.proof.record a }

theorem Ready.le_seeded (h : S.Ready arena L) (ha : a.EnteredIn L) :
    S.cast ≤ (S.seeded a).cast := by
  rcases h.drawn a.id a ha with hnone | hpro
  · exact Register.le_enter hnone _
  · intro id x hx
    by_cases hid : id = a.id
    · rw [← hx, hid, hpro]
      exact S.cast.enter_self _ _
    · rw [← hx]
      exact Register.enter_of_ne hid _

theorem Ready.seeded (h : S.Ready arena L) (ha : a.EnteredIn L) : (S.seeded a).Sound arena := by
  have hcast := h.le_seeded ha
  have henters := S.proof.record_enters a
  refine ⟨fun id hid ↦ ?_, ?_, fun id x hx ↦ ?_, fun id found hf ↦ ?_, fun id s hs ↦ ?_,
    fun id zs hzs ↦ ?_⟩
  · rw [← h.sound.free id hid]
    exact Register.enter_of_ne (Nat.ne_of_gt ((h.lt_free ha).trans_le hid)) _
  · have hsingle : S.proof.Enters ([a].flatMap Argument.subtree) (S.seeded a).proof := by
      rw [List.flatMap_singleton]
      exact henters
    exact h.sound.closed.enters hsingle
  · by_cases hid : id = a.id
    · exact hid ▸ henters.mentions a a.self_mem_subtree
    · rw [show (S.seeded a).cast id = _ from Register.enter_of_ne hid _] at hx
      exact (h.sound.mentions id x hx).mono henters.kept
  · obtain ⟨side, b, hb, hfound⟩ := h.sound.attackers id found (by rwa [← henters.attackers])
    exact ⟨side, b, hcast _ _ hb, fun e he ↦ ⟨(hfound e he).1.mono hcast, (hfound e he).2⟩⟩
  · obtain ⟨side, b, hb, hstatus⟩ := h.sound.statuses id s (by rwa [← henters.statuses])
    refine ⟨side, b, hcast _ _ hb, ?_⟩
    rwa [show (S.seeded a).proof.defenders = _ from henters.defenders]
  · obtain ⟨hne, y, hy, hdefenders⟩ := h.sound.defenders id zs (by rwa [← henters.defenders])
    exact ⟨hne, y, hcast _ _ hy, fun z hz ↦
      ⟨(hdefenders z hz).1.mono hcast, (hdefenders z hz).2⟩⟩

theorem has_seeded (S : Stage) (a : Argument) : (S.seeded a).Has .pro a :=
  S.cast.enter_self a.id _

theorem Ready.of_leads (h : S.Ready arena L) (ha : a.EnteredIn L) (hT : T.Sound arena)
    (hleads : (S.seeded a).Leads T) : T.Ready arena L := by
  refine ⟨hT, fun id hid ↦ h.free id (hleads.free.trans hid), fun id b hb ↦ ?_⟩
  have hid : id < S.free := by
    by_contra hid
    rw [h.free id (not_lt.mp hid)] at hb
    cases hb
  rw [hleads.kept id hid]
  by_cases heq : id = a.id
  · rw [heq, ha, Option.some.injEq] at hb
    subst hb heq
    exact .inr (S.has_seeded a)
  · rw [show (S.seeded a).cast id = _ from Register.enter_of_ne heq _]
    exact h.drawn id b hb

def fresh (next : ℕ) : Stage :=
  ⟨.empty, Query.session next⟩

theorem ready_fresh (arena : Arena) (next : ℕ) : (fresh next).Ready arena .empty where
  sound := ⟨fun _ _ ↦ rfl, .empty, nofun, nofun, nofun, nofun⟩
  free _ _ := rfl
  drawn := nofun

end Stage

open Search (Upholds)

/-- Whatever an evaluation of an argument on the proponent's side leads to, holds of the answers to
a query, provided that what follows does not change it. -/
theorem Query.keeps_sides {q : Query} {moves : ℕ} {V : Stage → Argument → Bool → Prop}
    (hmono : ∀ S T a b, S.Follows T → V S a b → V T a b)
    (hdefend : ∀ (S : Stage) a, S.Sound q.arena → S.Has .pro a →
      Upholds q.arena S (q.settings.semantics.defend q.arena moves (.seeded a)) fun T r ↦
        V T a r.isSome) :
    q.Keeps moves Stage.session (Stage.Ready q.arena) Stage.Follows
      fun S a b ↦ S.Has .pro a ∧ V S a b where
  refl S := (Stage.Leads.refl S).follows
  trans _ _ _ h h' := ⟨Register.le_trans h.1 h'.1, h.2.trans h'.2⟩
  verdict S T a b h hv := ⟨hv.1.mono h.1, hmono S T a b h hv.2⟩
  takeVariables L S n h :=
    ⟨⟨S.cast, S.session.takeVariables n⟩, rfl, h.takeVariables n, (Stage.Leads.refl S).follows⟩
  takeArgument L S h :=
    ⟨h.free _ (Nat.le_refl _), ⟨S.cast, S.session.takeArgument⟩, rfl, (Stage.Leads.refl S).follows,
      h.takeArgument⟩
  evaluate L S a r τ h ha hrun := by
    obtain ⟨_, ρ, hrecord, hrun⟩ := Search.bind_eq_some.mp hrun
    cases hrecord
    obtain ⟨C, hleads, hsound, hV⟩ :=
      hdefend (S.seeded a) a (h.seeded ha) (S.has_seeded a) r τ hrun
    have hfollows : S.Follows (S.seeded a) := ⟨h.le_seeded ha, (S.proof.record_enters a).grows⟩
    refine ⟨⟨C, τ⟩, rfl, h.of_leads ha hsound hleads, ?_, (S.has_seeded a).mono hleads.cast, hV⟩
    exact ⟨Register.le_trans hfollows.1 hleads.cast, hfollows.2.trans hleads.record⟩

theorem Semantics.defend_upholds (semantics : Semantics) (arena : Arena) (moves : ℕ) {S : Stage}
    (hS : S.Sound arena) {d : Dispute} (hd : d.OnStage S) :
    Upholds arena S (semantics.defend arena moves d) fun _ _ ↦ True := by
  cases semantics with
  | grounded => exact (Grounded.defend_keepsSides arena moves S d hS hd).imp fun _ _ _ _ _ ↦ trivial
  | preferredCredulous =>
    exact (Preferred.defend_explains arena moves hS hd).imp fun _ _ _ _ _ ↦ trivial

end Argumentation
