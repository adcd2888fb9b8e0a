import Argumentation.Proofs.Dialogue.Casting
import Argumentation.Proofs.Dialogue.Replay
import Mathlib.Order.Interval.Set.Basic

namespace Argumentation

namespace Proof

/-- Whatever the first proof says, verdicts included, the second one says as well. -/
structure Persists (p p' : Proof) : Prop where
  attackers : ∀ id found, p.attackers.lookup id = some found → p'.attackers.lookup id = some found
  statuses : ∀ id status, p.statuses.lookup id = some status → p'.statuses.lookup id = some status
  defenders : ∀ id zs, p.defenders.lookup id = some zs →
    ∃ zs', p'.defenders.lookup id = some zs' ∧ zs ⊆ zs'

def Blank (p : Proof) (id : ArgumentId) : Prop :=
  p.attackers.lookup id = none ∧ p.statuses.lookup id = none

def Repelled (p : Proof) (y : Argument) : Prop :=
  ∃ zs, p.defenders.lookup y.id = some zs ∧ ∃ z ∈ zs, p.statuses.lookup z.id = some .undefeated

def Safe (p : Proof) (id : ArgumentId) : Prop :=
  ∃ found, p.attackers.lookup id = some found ∧ ∀ e ∈ found.successful,
    p.statuses.lookup e.attacker.id = some .defeated ∧ p.Repelled e.attacker

def Certified (p : Proof) : Prop :=
  ∀ id, p.statuses.lookup id = some .undefeated → p.Safe id

variable {p p' p'' : Proof} {a y z : Argument}

theorem lookup_of_status {status : Status} (h : p.status a = status) (hset : status ≠ .unset) :
    p.statuses.lookup a.id = some status := by
  unfold Proof.status at h
  cases hl : p.statuses.lookup a.id with
  | none =>
    rw [hl] at h
    exact absurd h.symm hset
  | some s =>
    rw [hl] at h
    exact congrArg some h

theorem Blank.of_persists {id : ArgumentId} (h : p.Blank id) (hp : p'.Persists p) :
    p'.Blank id := by
  refine ⟨Option.eq_none_iff_forall_ne_some.mpr fun found hf ↦ ?_,
    Option.eq_none_iff_forall_ne_some.mpr fun s hs ↦ ?_⟩
  · have hknown := hp.attackers id found hf
    rw [h.1] at hknown
    cases hknown
  · have hknown := hp.statuses id s hs
    rw [h.2] at hknown
    cases hknown

namespace Persists

theorem refl (p : Proof) : p.Persists p :=
  ⟨fun _ _ h ↦ h, fun _ _ h ↦ h, fun _ zs h ↦ ⟨zs, h, List.Subset.refl _⟩⟩

theorem trans (h : p.Persists p') (h' : p'.Persists p'') : p.Persists p'' where
  attackers id found hf := h'.attackers id found (h.attackers id found hf)
  statuses id s hs := h'.statuses id s (h.statuses id s hs)
  defenders id zs hzs := by
    obtain ⟨zs', hzs', hsub⟩ := h.defenders id zs hzs
    obtain ⟨zs'', hzs'', hsub'⟩ := h'.defenders id zs' hzs'
    exact ⟨zs'', hzs'', List.Subset.trans hsub hsub'⟩

theorem of_eq (hattackers : ∀ id found, p.attackers.lookup id = some found →
    p'.attackers.lookup id = some found) (hstatuses : p'.statuses = p.statuses)
    (hdefenders : p'.defenders = p.defenders) : p.Persists p' := by
  refine ⟨hattackers, fun id s h ↦ ?_, fun id zs h ↦ ⟨zs, ?_, List.Subset.refl _⟩⟩
  · rw [hstatuses, h]
  · rw [hdefenders, h]

theorem repelled (h : p.Persists p') (hy : p.Repelled y) : p'.Repelled y := by
  obtain ⟨zs, hzs, z, hz, hstatus⟩ := hy
  obtain ⟨zs', hzs', hsub⟩ := h.defenders _ zs hzs
  exact ⟨zs', hzs', z, hsub hz, h.statuses _ _ hstatus⟩

theorem safe (h : p.Persists p') {id : ArgumentId} (hid : p.Safe id) : p'.Safe id := by
  obtain ⟨found, hlookup, hfound⟩ := hid
  refine ⟨found, h.attackers _ _ hlookup, fun e he ↦ ?_⟩
  exact ⟨h.statuses _ _ (hfound e he).1, h.repelled (hfound e he).2⟩

/-- A later proof is certified if the verdicts that are new in it are safe. -/
theorem certified (h : p.Persists p') (hp : p.Certified)
    (hnew : ∀ id, p'.statuses.lookup id = some .undefeated →
      p.statuses.lookup id = some .undefeated ∨ p'.Safe id) : p'.Certified :=
  fun id hid ↦ (hnew id hid).elim (fun hold ↦ h.safe (hp id hold)) fun hsafe ↦ hsafe

end Persists

theorem persists_record (p : Proof) (a : Argument) : p.Persists (p.record a) := by
  have henters := p.record_enters a
  exact .of_eq henters.grows.attackers henters.statuses henters.defenders

theorem record_persists (p : Proof) (a : Argument) : (p.record a).Persists p := by
  have henters := p.record_enters a
  exact .of_eq (fun id found h ↦ by rwa [← henters.attackers]) henters.statuses.symm
    henters.defenders.symm

theorem persists_setStatus {status : Status}
    (h : ∀ s, p.statuses.lookup a.id = some s → s = status) :
    p.Persists (p.setStatus a status) := by
  refine ⟨fun _ _ hf ↦ hf, fun id s hs ↦ ?_, fun _ zs hzs ↦ ⟨zs, hzs, List.Subset.refl _⟩⟩
  rw [lookup_setStatus]
  split
  · rename_i hid
    rw [h s (hid ▸ hs)]
  · exact hs

theorem setStatus_persists {status : Status} (h : p.statuses.lookup a.id = some status) :
    (p.setStatus a status).Persists p := by
  refine ⟨fun _ _ hf ↦ hf, fun id s hs ↦ ?_, fun _ zs hzs ↦ ⟨zs, hzs, List.Subset.refl _⟩⟩
  rw [lookup_setStatus] at hs
  split at hs
  · rename_i hid
    rw [hid, h, hs]
  · exact hs

theorem persists_addDefender (p : Proof) (y z : Argument) : p.Persists (p.addDefender y z) := by
  have hgrows := Grows.addDefender p y z
  refine ⟨hgrows.attackers, fun id s hs ↦ ?_, hgrows.defenders⟩
  rw [addDefender_statuses, hs]

theorem addDefender_eq_self {w : Argument} (hw : w ∈ p.defendersFrom y) (hid : w.id = z.id) :
    p.addDefender y z = p := by
  have hknown : (p.defendersFrom y).any (·.id == z.id) = true :=
    List.any_eq_true.mpr ⟨w, hw, beq_iff_eq.mpr hid⟩
  exact if_pos hknown

end Proof

namespace Session

def Persists (σ τ : Session) : Prop :=
  σ.proof.Persists τ.proof

instance : IsPreorder Session Persists where
  refl σ := .refl σ.proof
  trans _ _ _ := .trans

/-- Of the arguments that had their numbers before, only these were asked about. -/
structure Frame (touched : Set ArgumentId) (σ τ : Session) : Prop where
  free : σ.supply.freeArgument ≤ τ.supply.freeArgument
  attackers : ∀ id < σ.supply.freeArgument, id ∉ touched →
    τ.proof.attackers.lookup id = σ.proof.attackers.lookup id
  statuses : ∀ id < σ.supply.freeArgument, id ∉ touched →
    τ.proof.statuses.lookup id = σ.proof.statuses.lookup id

variable {σ τ ρ : Session} {touched touched' : Set ArgumentId}

theorem Frame.refl (σ : Session) : Frame touched σ σ :=
  ⟨Nat.le_refl _, fun _ _ _ ↦ rfl, fun _ _ _ ↦ rfl⟩

theorem Frame.trans (h : Frame touched σ τ) (h' : Frame touched' τ ρ)
    (hsub : ∀ id ∈ touched', id < σ.supply.freeArgument → id ∈ touched) : Frame touched σ ρ where
  free := h.free.trans h'.free
  attackers id hid hnot :=
    (h'.attackers id (hid.trans_le h.free) fun hmem ↦ hnot (hsub id hmem hid)).trans
      (h.attackers id hid hnot)
  statuses id hid hnot :=
    (h'.statuses id (hid.trans_le h.free) fun hmem ↦ hnot (hsub id hmem hid)).trans
      (h.statuses id hid hnot)

theorem Frame.mono (h : Frame touched σ τ) (hsub : touched ⊆ touched') : Frame touched' σ τ :=
  ⟨h.free, fun id hid hnot ↦ h.attackers id hid fun hmem ↦ hnot (hsub hmem),
    fun id hid hnot ↦ h.statuses id hid fun hmem ↦ hnot (hsub hmem)⟩

theorem Frame.blank (h : Frame touched σ τ) {id : ArgumentId} (hid : id < σ.supply.freeArgument)
    (hnot : id ∉ touched) (hblank : σ.proof.Blank id) : τ.proof.Blank id :=
  ⟨(h.attackers id hid hnot).trans hblank.1, (h.statuses id hid hnot).trans hblank.2⟩

end Session

structure Proof.Pending (p : Proof) (es : List AttackerEntry) : Prop where
  distinct : (es.map (·.attacker.id)).Nodup
  blank : ∀ e ∈ es, p.Blank e.attacker.id

def AttackerEntry.ids (es : List AttackerEntry) : Set ArgumentId :=
  {id | ∃ e ∈ es, e.attacker.id = id}

namespace AttackerEntry

variable {e : AttackerEntry} {es : List AttackerEntry}

theorem ids_subset_cons : ids es ⊆ ids (e :: es) := by
  rintro id ⟨x, hx, hid⟩
  exact ⟨x, .tail _ hx, hid⟩

theorem singleton_subset_ids : ({e.attacker.id} : Set ArgumentId) ⊆ ids (e :: es) := by
  rintro id rfl
  exact ⟨e, .head _, rfl⟩

end AttackerEntry

namespace Proof.Pending

variable {p : Proof} {e : AttackerEntry} {es : List AttackerEntry}

theorem tail (h : p.Pending (e :: es)) : p.Pending es :=
  ⟨(List.nodup_cons.mp h.distinct).2, fun x hx ↦ h.blank x (.tail _ hx)⟩

theorem singleton_disjoint (h : p.Pending (e :: es)) :
    ∀ id ∈ ({e.attacker.id} : Set ArgumentId), id ∉ AttackerEntry.ids es := by
  rintro id rfl ⟨x, hx, hid⟩
  exact (List.nodup_cons.mp h.distinct).1 (List.mem_map.mpr ⟨x, hx, hid⟩)

theorem frame {σ τ : Session} {touched : Set ArgumentId} (h : σ.proof.Pending es)
    (hframe : Session.Frame touched σ τ) (hlt : ∀ x ∈ es, x.attacker.id < σ.supply.freeArgument)
    (hnot : ∀ id ∈ touched, id ∉ AttackerEntry.ids es) : τ.proof.Pending es :=
  ⟨h.distinct, fun x hx ↦
    hframe.blank (hlt x hx) (fun hmem ↦ hnot _ hmem ⟨x, hx, rfl⟩) (h.blank x hx)⟩

end Proof.Pending

theorem Stage.Sound.blank {arena : Arena} {S : Stage} (h : S.Sound arena) {id : ArgumentId}
    (hid : S.cast id = none) : S.proof.Blank id := by
  refine ⟨h.lookup_eq_none hid, Option.eq_none_iff_forall_ne_some.mpr fun status hstatus ↦ ?_⟩
  obtain ⟨side, a, hcast, -⟩ := h.statuses id status hstatus
  rw [hid] at hcast
  cases hcast

namespace Search

open Session (Frame)

/-- Verdicts are given on the arguments that are asked about, and none is changed. -/
structure Determined {α : Type} (touched : Set ArgumentId) (m : Search α) (S : Stage) (r : α)
    (T : Stage) : Prop where
  replays : Replays Session.Persists m S.session r T.session
  frame : Frame touched S.session T.session
  certified : S.proof.Certified → T.proof.Certified

/-- Every outcome of the search leads to a sound stage with a property, and gives verdicts on the
arguments that are asked about. -/
def Determines {α : Type} (arena : Arena) (touched : Set ArgumentId) (S : Stage) (m : Search α)
    (P : Stage → α → Prop) : Prop :=
  Upholds arena S m fun T r ↦ Determined touched m S r T ∧ P T r

namespace Determines

variable {α β : Type} {arena : Arena} {touched touched' : Set ArgumentId} {S T : Stage}
  {m : Search α} {k : α → Search β} {P P' : Stage → α → Prop} {Q : Stage → β → Prop} {side : Side}
  {a y z : Argument}

theorem pure {r : α} (hS : S.Sound arena) (h : P S r) : Determines arena touched S (pure r) P :=
  Upholds.pure hS ⟨⟨.pure r, .refl _, id⟩, h⟩

theorem bind {touched₁ : Set ArgumentId} (hm : Determines arena touched₁ S m P)
    (touched₂ : Set ArgumentId) (hsub₁ : touched₁ ⊆ touched)
    (hsub₂ : ∀ id ∈ touched₂, id < S.free → id ∈ touched)
    (hk : ∀ T r, S.Leads T → T.Sound arena → Frame touched₁ S.session T.session →
      S.proof.Persists T.proof → P T r → Determines arena touched₂ T (k r) Q) :
    Determines arena touched S (m >>= k) Q := by
  refine Upholds.bind hm fun T r hST hT ⟨h, hr⟩ ↦ ?_
  refine (hk T r hST hT h.frame h.replays.later hr).imp fun U r' _ _ ⟨h', hr'⟩ ↦ ⟨⟨?_, ?_, ?_⟩, hr'⟩
  · exact h.replays.bind h'.replays
  · exact (h.frame.mono hsub₁).trans h'.frame hsub₂
  · exact fun hS ↦ h'.certified (h.certified hS)

theorem mono (hm : Determines arena touched S m P) (hsub : touched ⊆ touched') :
    Determines arena touched' S m P :=
  Upholds.imp hm fun _ _ _ _ ⟨h, hr⟩ ↦ ⟨⟨h.replays, h.frame.mono hsub, h.certified⟩, hr⟩

theorem imp (hm : Determines arena touched S m P)
    (h : ∀ T r, S.Leads T → S.proof.Persists T.proof → P T r → P' T r) :
    Determines arena touched S m P' :=
  Upholds.imp hm fun T r hST _ ⟨hdet, hr⟩ ↦ ⟨hdet, h T r hST hdet.replays.later hr⟩

theorem setStatus (hS : S.Sound arena) (ha : S.Has side a) {status : Status}
    (hopp : side = .opp → status = .defeated ∧ (S.proof.defenders.lookup a.id).isSome)
    (hsame : ∀ s, S.proof.statuses.lookup a.id = some s → s = status)
    (hsafe : status = .undefeated → S.proof.Safe a.id) :
    Determines arena {a.id} S (Search.setStatus a status) fun T _ ↦
      T.cast = S.cast ∧ T.proof = S.proof.setStatus a status := by
  refine (Upholds.setStatus hS ha hopp).imp fun T _ hST _ ⟨hcast, hproof⟩ ↦
    ⟨⟨⟨?_, fun ρ hρ ↦ ⟨_, rfl, ?_⟩⟩, ⟨hST.free, ?_, ?_⟩, fun hcertified ↦ ?_⟩, hcast, hproof⟩
  all_goals have hpersists := Proof.persists_setStatus hsame
  all_goals have hlookup (id : ArgumentId) := S.proof.lookup_setStatus a status id
  all_goals rw [← hproof] at hpersists hlookup
  · exact hpersists
  · have hself := hρ.statuses a.id status ((hlookup a.id).trans (if_pos rfl))
    refine ⟨Proof.persists_setStatus fun s hs ↦ ?_, Proof.setStatus_persists hself⟩
    rwa [hself, Option.some.injEq, eq_comm] at hs
  · intro id _ _
    rw [show T.session.proof = _ from hproof]
    rfl
  · exact fun id _ hid ↦ (hlookup id).trans (if_neg hid)
  · refine hpersists.certified hcertified fun id hid ↦ ?_
    rw [hlookup] at hid
    split at hid
    · rename_i heq
      exact .inr (heq ▸ hpersists.safe (hsafe (Option.some.inj hid)))
    · exact .inl hid

theorem addDefender (hS : S.Sound arena) (hy : S.Has .opp y) (hz : S.Has .pro z)
    (hattacks : z.attacks arena.restricted y = true) :
    Determines arena touched S (Search.addDefender y z) fun T _ ↦
      T.cast = S.cast ∧ T.proof = S.proof.addDefender y z := by
  refine (Upholds.addDefender hS hy hz hattacks).imp fun T _ hST _ ⟨hcast, hproof⟩ ↦
    ⟨⟨⟨?_, fun ρ hρ ↦ ⟨_, rfl, ?_⟩⟩, ⟨hST.free, ?_, ?_⟩, fun hcertified ↦ ?_⟩, hcast, hproof⟩
  all_goals have hpersists := S.proof.persists_addDefender y z
  all_goals rw [← hproof] at hpersists
  · exact hpersists
  · obtain ⟨w, hw, hid⟩ := S.proof.exists_mem_defendersWith y z
    have hlookup : T.proof.defenders.lookup y.id = some (S.proof.defendersWith y z) := by
      rw [hproof, Proof.lookup_addDefender, if_pos rfl]
    obtain ⟨zs, hzs, hsub⟩ := hρ.defenders _ _ hlookup
    have hknown : w ∈ ρ.proof.defendersFrom y := by
      rw [Proof.defendersFrom, hzs, Option.getD_some]
      exact hsub hw
    have hback : (ρ.proof.addDefender y z).Persists ρ.proof := by
      rw [Proof.addDefender_eq_self hknown hid]
      exact .refl ρ.proof
    exact ⟨ρ.proof.persists_addDefender y z, hback⟩
  · intro id _ _
    rw [show T.session.proof = _ from hproof, Search.addDefender_attackers]
  · intro id _ _
    rw [show T.session.proof = _ from hproof, Proof.addDefender_statuses]
  · refine hpersists.certified hcertified fun id hid ↦ .inl ?_
    rwa [hproof, Proof.addDefender_statuses] at hid

/-- The attackers of an argument for which there is no list yet have numbers that were free. -/
theorem attackersOf (hS : S.Sound arena) (ha : S.Has side a)
    (hnew : S.proof.attackers.lookup a.id = none) :
    Determines arena {a.id} S (Search.attackersOf arena a) fun T es ↦
      (∃ found, T.proof.attackers.lookup a.id = some found ∧ found.successful = es) ∧
      T.proof.statuses = S.proof.statuses ∧
      (∀ e ∈ es, T.Has side.other e.attacker ∧ e.attacker.attacks arena.restricted a = true) ∧
      T.proof.Pending es ∧ ∀ e ∈ es, S.free ≤ e.attacker.id := by
  intro es τ hrun
  rw [attackersOf_new hnew] at hrun
  cases hrun
  obtain ⟨hleads, hsound, hhas⟩ := Upholds.looked hS ha hnew
  obtain ⟨L, hL, hentered⟩ := arena.findAttackers_entered a S.session.supply
  obtain ⟨recorded, henters, hproof⟩ := Search.looked_proof arena a S.session
  have hlookup (id : ArgumentId) :
      (Search.looked arena a S.session).proof.attackers.lookup id =
        if id = a.id then some (arena.findAttackers a S.session.supply).1
        else S.proof.attackers.lookup id := Search.lookup_looked a S.session id
  have hstatuses : (Search.looked arena a S.session).proof.statuses = S.proof.statuses := by
    rw [hproof]
    exact henters.statuses
  have hpersists : S.proof.Persists (Search.looked arena a S.session).proof :=
    .of_eq (within_looked hnew) hstatuses (by rw [hproof]; exact henters.defenders)
  have hself := (hlookup a.id).trans (if_pos rfl)
  have hlt := hS.lt_free ha
  refine ⟨_, hleads, hsound, ⟨⟨hpersists, fun ρ hρ ↦ ?_⟩, ⟨hleads.free, ?_, ?_⟩, fun h ↦ ?_⟩,
    ⟨_, hself, rfl⟩, hstatuses, ?_, ⟨hentered.distinct, fun e he ↦ ?_⟩, fun e he ↦ ?_⟩
  · exact ⟨ρ, attackersOf_known (hρ.attackers _ _ hself), .refl _, .refl _⟩
  · exact fun id _ hid ↦ (hlookup id).trans (if_neg hid)
  · exact fun id _ _ ↦ by rw [hstatuses]
  · exact hpersists.certified h fun id hid ↦ .inl (by rwa [← hstatuses])
  · exact hsound.of_lookup (ha.mono hleads.cast) hself
  · -- The number was free, so nothing was known of the argument, and nothing is noted of it now.
    have hid := (hentered.id_mem hL he).1
    have hblank := hS.blank (hS.free _ hid)
    refine ⟨(hlookup _).trans ?_, hstatuses ▸ hblank.2⟩
    rw [if_neg (Nat.ne_of_gt (hlt.trans_le hid))]
    exact hblank.1
  · exact (hentered.id_mem hL he).1

end Determines

end Search

end Argumentation
