import Argumentation.Dialogue.Semantics
import Argumentation.Proofs.Dialogue.Findings
import Argumentation.Proofs.Dialogue.Record

namespace Argumentation

inductive Side where
  | pro
  | opp
  deriving DecidableEq

def Side.other : Side → Side
  | pro => opp
  | opp => pro

/-- A session, and the arguments that the parties may put forward by their numbers. -/
structure Stage where
  cast : Register (Side × Argument)
  session : Session

namespace Stage

abbrev proof (S : Stage) : Proof :=
  S.session.proof

abbrev free (S : Stage) : ℕ :=
  S.session.supply.freeArgument

def Has (S : Stage) (side : Side) (a : Argument) : Prop :=
  S.cast a.id = some (side, a)

/-- The later stage has the arguments of the earlier one and says all that it says, and only numbers
that were free were given to more arguments. -/
structure Leads (S T : Stage) : Prop where
  cast : S.cast ≤ T.cast
  kept : ∀ id < S.free, T.cast id = S.cast id
  free : S.free ≤ T.free
  record : S.proof.Grows T.proof

/-- The record of a stage is closed, has all arguments that are on a side, and fits the sides. -/
structure Sound (arena : Arena) (S : Stage) : Prop where
  free : ∀ id, S.free ≤ id → S.cast id = none
  closed : S.proof.Closed
  mentions : ∀ id x, S.cast id = some x → S.proof.Mentions id
  attackers : ∀ id found, S.proof.attackers.lookup id = some found →
    ∃ side a, S.cast id = some (side, a) ∧ ∀ e ∈ found.successful,
      S.Has side.other e.attacker ∧ e.attacker.attacks arena.restricted a = true
  statuses : ∀ id status, S.proof.statuses.lookup id = some status →
    ∃ side a, S.cast id = some (side, a) ∧
      (side = .opp → status = .defeated ∧ (S.proof.defenders.lookup id).isSome)
  defenders : ∀ id zs, S.proof.defenders.lookup id = some zs → zs ≠ [] ∧
    ∃ y, S.cast id = some (.opp, y) ∧
      ∀ z ∈ zs, S.Has .pro z ∧ z.attacks arena.restricted y = true

variable {arena : Arena} {S T U : Stage} {side : Side} {a : Argument}

theorem Leads.refl (S : Stage) : S.Leads S :=
  ⟨Register.le_refl _, fun _ _ ↦ rfl, Nat.le_refl _, .refl _⟩

theorem Leads.trans (h : S.Leads T) (h' : T.Leads U) : S.Leads U where
  cast := Register.le_trans h.cast h'.cast
  kept id hid := (h'.kept id (hid.trans_le h.free)).trans (h.kept id hid)
  free := h.free.trans h'.free
  record := h.record.trans h'.record

theorem Has.mono (h : S.Has side a) (hST : S.cast ≤ T.cast) : T.Has side a :=
  hST _ _ h

theorem Sound.lt_free (hS : S.Sound arena) (h : S.Has side a) : a.id < S.free := by
  by_contra hid
  have hnone := hS.free a.id (not_lt.mp hid)
  rw [show S.cast a.id = some (side, a) from h] at hnone
  cases hnone

theorem Sound.lookup_eq_none (hS : S.Sound arena) {id : ArgumentId} (hid : S.cast id = none) :
    S.proof.attackers.lookup id = none := by
  refine Option.eq_none_iff_forall_ne_some.mpr fun found hfound ↦ ?_
  obtain ⟨side, b, hcast, -⟩ := hS.attackers id found hfound
  rw [hid] at hcast
  cases hcast

/-- The attackers remembered for an argument on a side are on the other one and attack it. -/
theorem Sound.of_lookup (hS : S.Sound arena) (ha : S.Has side a) {found : Attackers}
    (h : S.proof.attackers.lookup a.id = some found) : ∀ e ∈ found.successful,
      S.Has side.other e.attacker ∧ e.attacker.attacks arena.restricted a = true := by
  obtain ⟨side', a', hcast, hfound⟩ := hS.attackers _ found h
  rw [show S.cast a.id = some (side, a) from ha] at hcast
  cases hcast
  exact hfound

theorem Sound.status_of_opp (hS : S.Sound arena) (ha : S.Has .opp a) {status : Status}
    (h : S.proof.statuses.lookup a.id = some status) :
    status = .defeated ∧ (S.proof.defenders.lookup a.id).isSome := by
  obtain ⟨side, b, hcast, hstatus⟩ := hS.statuses _ status h
  rw [show S.cast a.id = some (.opp, a) from ha] at hcast
  cases hcast
  exact hstatus rfl

theorem Sound.defenders_of_opp (hS : S.Sound arena) (ha : S.Has .opp a) {zs : List Argument}
    (h : S.proof.defenders.lookup a.id = some zs) : zs ≠ [] ∧
      ∀ z ∈ zs, S.Has .pro z ∧ z.attacks arena.restricted a = true := by
  obtain ⟨hne, y, hcast, hzs⟩ := hS.defenders _ zs h
  rw [show S.cast a.id = some (.opp, a) from ha] at hcast
  cases hcast
  exact ⟨hne, hzs⟩

end Stage

def Search.Upholds {α : Type} (arena : Arena) (S : Stage) (m : Search α)
    (P : Stage → α → Prop) : Prop :=
  ∀ r τ, m S.session = some (r, τ) →
    ∃ C, S.Leads ⟨C, τ⟩ ∧ Stage.Sound arena ⟨C, τ⟩ ∧ P ⟨C, τ⟩ r

namespace Search.Upholds

variable {α β : Type} {arena : Arena} {S T : Stage} {m : Search α} {k : α → Search β}
  {P P' : Stage → α → Prop} {Q : Stage → β → Prop} {side : Side} {a y z : Argument}

theorem pure {r : α} (hS : S.Sound arena) (h : P S r) : Upholds arena S (pure r) P := by
  intro r' τ hrun
  obtain ⟨rfl, rfl⟩ := pure_eq_some.mp hrun
  exact ⟨S.cast, .refl S, hS, h⟩

theorem bind (hm : Upholds arena S m P)
    (hk : ∀ T r, S.Leads T → T.Sound arena → P T r → Upholds arena T (k r) Q) :
    Upholds arena S (m >>= k) Q := by
  intro r τ hrun
  obtain ⟨b, ρ, h₁, h₂⟩ := bind_eq_some.mp hrun
  obtain ⟨C, hST, hT, hP⟩ := hm b ρ h₁
  obtain ⟨D, hTU, hU, hQ⟩ := hk _ b hST hT hP r τ h₂
  exact ⟨D, hST.trans hTU, hU, hQ⟩

theorem imp (hm : Upholds arena S m P) (h : ∀ T r, S.Leads T → T.Sound arena → P T r → P' T r) :
    Upholds arena S m P' := by
  intro r τ hrun
  obtain ⟨C, hST, hT, hP⟩ := hm r τ hrun
  exact ⟨C, hST, hT, h _ r hST hT hP⟩

theorem setStatus (hS : S.Sound arena) (ha : S.Has side a) {status : Status}
    (hstatus : side = .opp → status = .defeated ∧ (S.proof.defenders.lookup a.id).isSome) :
    Upholds arena S (Search.setStatus a status) fun T _ ↦
      T.cast = S.cast ∧ T.proof = S.proof.setStatus a status := by
  intro r τ hrun
  cases hrun
  refine ⟨S.cast, ⟨Register.le_refl _, fun _ _ ↦ rfl, Nat.le_refl _, .setStatus ..⟩, ?_, rfl, rfl⟩
  refine ⟨hS.free, hS.closed.congr rfl, hS.mentions, hS.attackers, fun id s h ↦ ?_, hS.defenders⟩
  change (S.proof.setStatus a status).statuses.lookup id = some s at h
  rw [Proof.lookup_setStatus] at h
  split at h
  · rename_i hid
    cases h
    exact ⟨side, a, hid ▸ ha, hid ▸ hstatus⟩
  · exact hS.statuses id s h

theorem addDefender (hS : S.Sound arena) (hy : S.Has .opp y) (hz : S.Has .pro z)
    (hattacks : z.attacks arena.restricted y = true) :
    Upholds arena S (Search.addDefender y z) fun T _ ↦
      T.cast = S.cast ∧ T.proof = S.proof.addDefender y z := by
  intro r τ hrun
  cases hrun
  refine ⟨S.cast, ⟨Register.le_refl _, fun _ _ ↦ rfl, Nat.le_refl _, .addDefender ..⟩, ?_, rfl, rfl⟩
  have harguments := S.proof.addDefender_arguments y z
  refine ⟨hS.free, hS.closed.congr harguments, fun id x hx ↦ ?_, fun id found h ↦ ?_,
    fun id s h ↦ ?_, fun id zs h ↦ ?_⟩
  · exact (hS.mentions id x hx).mono (by rw [← harguments]; exact List.Subset.refl _)
  · refine hS.attackers id found ?_
    rwa [← Search.addDefender_attackers S.proof y z]
  · obtain ⟨side, b, hb, hstatus⟩ := hS.statuses id s (by rwa [← S.proof.addDefender_statuses y z])
    refine ⟨side, b, hb, fun hside ↦ ⟨(hstatus hside).1, ?_⟩⟩
    obtain ⟨zs, hzs⟩ := Option.isSome_iff_exists.mp (hstatus hside).2
    obtain ⟨zs', hzs', -⟩ := (Proof.Grows.addDefender S.proof y z).defenders id zs hzs
    exact Option.isSome_of_eq_some hzs'
  · change (S.proof.addDefender y z).defenders.lookup id = some zs at h
    rw [Proof.lookup_addDefender] at h
    split at h
    · rename_i hid
      cases h
      obtain ⟨w, hw, -⟩ := S.proof.exists_mem_defendersWith y z
      refine ⟨List.ne_nil_of_mem hw, y, hid ▸ hy, fun w hw ↦ ?_⟩
      rcases Proof.mem_defendersWith hw with hw | rfl
      · cases hl : S.proof.defenders.lookup y.id with
        | none =>
          rw [Proof.defendersFrom, hl] at hw
          cases hw
        | some ws =>
          rw [Proof.defendersFrom, hl] at hw
          exact (hS.defenders_of_opp hy hl).2 w hw
      · exact ⟨hz, hattacks⟩
    · exact hS.defenders id zs h

def castWith (C : Register (Side × Argument)) (side : Side) (found : Attackers) :
    Register (Side × Argument) := fun id ↦
  (C id).or ((found.successful.find? fun e ↦ e.attacker.id == id).map fun e ↦ (side, e.attacker))

section Found

variable {C : Register (Side × Argument)} {found : Attackers} {L : Register Argument}

theorem le_castWith : C ≤ castWith C side found := by
  intro id x hx
  rw [castWith, hx, Option.some_or]

theorem castWith_of_lt {id : ArgumentId} (h : ∀ e ∈ found.successful, id < e.attacker.id) :
    castWith C side found id = C id := by
  have hnone : (found.successful.find? fun e ↦ e.attacker.id == id) = none :=
    List.find?_eq_none.mpr fun e he ↦ by simpa using Nat.ne_of_gt (h e he)
  rw [castWith, hnone, Option.map_none, Option.or_none]

theorem castWith_attacker (hentered : arena.Entered a L found) {e : AttackerEntry}
    (he : e ∈ found.successful) (hnew : C e.attacker.id = none) :
    castWith C side found e.attacker.id = some (side, e.attacker) := by
  obtain ⟨e', he'⟩ : ∃ e', (found.successful.find? fun d ↦ d.attacker.id == e.attacker.id) =
      some e' := Option.isSome_iff_exists.mp (List.find?_isSome.mpr ⟨e, he, by simp⟩)
  have hid : e'.attacker.id = e.attacker.id := by simpa using List.find?_some he'
  -- Both have this number from the register.
  have hsame := hentered.entered e' (List.mem_of_find?_eq_some he')
  rw [Argument.EnteredIn, hid, hentered.entered e he, Option.some.injEq] at hsame
  rw [castWith, hnew, Option.none_or, he', Option.map_some, hsame]

theorem of_castWith {id : ArgumentId} {x : Side × Argument}
    (h : castWith C side found id = some x) :
    C id = some x ∨ ∃ e ∈ found.successful, e.attacker.id = id := by
  rcases Option.or_eq_some_iff.mp h with h | ⟨-, h⟩
  · exact .inl h
  · obtain ⟨e, he, -⟩ := Option.map_eq_some_iff.mp h
    exact .inr ⟨e, List.mem_of_find?_eq_some he, by simpa using List.find?_some he⟩

end Found

theorem looked (hS : S.Sound arena) (ha : S.Has side a)
    (hnone : S.proof.attackers.lookup a.id = none) :
    let found := (arena.findAttackers a S.session.supply).1
    let T : Stage := ⟨castWith S.cast side.other found, Search.looked arena a S.session⟩
    S.Leads T ∧ T.Sound arena ∧ ∀ e ∈ found.successful, T.Has side.other e.attacker := by
  intro found T
  obtain ⟨L, hL, hentered⟩ := arena.findAttackers_entered a S.session.supply
  obtain ⟨recorded, henters, hproof⟩ := Search.looked_proof arena a S.session
  have hgrows : S.proof.Grows T.proof := Search.looked_grows hnone
  have hfree : T.free = (arena.findAttackers a S.session.supply).2.freeArgument := rfl
  have hids (e : AttackerEntry) (he : e ∈ found.successful) :
      S.free ≤ e.attacker.id ∧ e.attacker.id < T.free := Arena.Entered.id_mem hL hentered he
  have hhas (e : AttackerEntry) (he : e ∈ found.successful) : T.Has side.other e.attacker :=
    castWith_attacker hentered he (hS.free _ (hids e he).1)
  have hcast : S.cast ≤ T.cast := le_castWith
  refine ⟨⟨hcast, fun id hid ↦ ?_, hL.le, hgrows⟩, ?_, hhas⟩
  · exact castWith_of_lt fun e he ↦ Nat.lt_of_lt_of_le hid (hids e he).1
  refine ⟨fun id hid ↦ ?_, ?_, fun id x hx ↦ ?_, fun id found' h ↦ ?_, fun id s h ↦ ?_,
    fun id zs h ↦ ?_⟩
  · cases hx : T.cast id with
    | none => rfl
    | some x =>
      rcases of_castWith hx with hx | ⟨e, he, rfl⟩
      · rw [hS.free id (hL.le.trans hid)] at hx
        cases hx
      · exact absurd hid (not_le.mpr (hids e he).2)
  · exact (hS.closed.enters henters).congr (by rw [show T.proof = _ from hproof])
  · rcases of_castWith hx with hx | ⟨e, he, rfl⟩
    · exact (hS.mentions id x hx).mono hgrows.arguments
    · have hmem : e.attacker ∈ (found.successful.map (·.attacker)).flatMap Argument.subtree :=
        List.mem_flatMap.mpr ⟨_, List.mem_map_of_mem he, e.attacker.self_mem_subtree⟩
      refine (henters.mentions _ hmem).mono ?_
      rw [show T.proof = _ from hproof]
      exact List.Subset.refl _
  · rw [show T.proof.attackers.lookup id = _ from Search.lookup_looked a S.session id] at h
    split at h
    · rename_i hid
      cases h
      refine ⟨side, a, hid ▸ ha.mono hcast, fun e he ↦ ⟨hhas e he, hentered.attacks e he⟩⟩
    · obtain ⟨side', b, hb, hfound⟩ := hS.attackers id found' h
      exact ⟨side', b, hcast _ _ hb, fun e he ↦ ⟨(hfound e he).1.mono hcast, (hfound e he).2⟩⟩
  · rw [show T.proof = _ from hproof] at h
    obtain ⟨side', b, hb, hs⟩ := hS.statuses id s (by rwa [← henters.statuses])
    exact ⟨side', b, hcast _ _ hb, by rwa [show T.proof = _ from hproof, henters.defenders]⟩
  · rw [show T.proof = _ from hproof] at h
    obtain ⟨hne, y, hy, hzs⟩ := hS.defenders id zs (by rwa [← henters.defenders])
    exact ⟨hne, y, hcast _ _ hy, fun z hz ↦ ⟨(hzs z hz).1.mono hcast, (hzs z hz).2⟩⟩

theorem attackersOf (hS : S.Sound arena) (ha : S.Has side a) :
    Upholds arena S (Search.attackersOf arena a) fun T es ↦
      (∃ found, T.proof.attackers.lookup a.id = some found ∧ found.successful = es) ∧
      ∀ e ∈ es, T.Has side.other e.attacker ∧ e.attacker.attacks arena.restricted a = true := by
  intro es τ hrun
  cases hl : S.proof.attackers.lookup a.id with
  | some found =>
    rw [attackersOf_known hl] at hrun
    cases hrun
    exact ⟨S.cast, .refl S, hS, ⟨found, hl, rfl⟩, hS.of_lookup ha hl⟩
  | none =>
    rw [attackersOf_new hl] at hrun
    cases hrun
    obtain ⟨hleads, hsound, hhas⟩ := looked hS ha hl
    have hself : (Search.looked arena a S.session).proof.attackers.lookup a.id =
        some (arena.findAttackers a S.session.supply).1 := lookup_looked_self a
    have hattacks := hsound.of_lookup (ha.mono hleads.cast) hself
    exact ⟨_, hleads, hsound, ⟨_, hself, rfl⟩, hattacks⟩

/-- The verdict on an argument of the proponent is given when its defence is over. -/
theorem settled {m : Search (Option Dispute)} {P : Stage → Option Dispute → Prop}
    (ha : S.Has .pro a) (hm : Upholds arena S m P)
    (hP : ∀ T U r, P T r → T.Leads U → P U r) :
    Upholds arena S (do
      let result ← m
      Search.setStatus a (if result.isSome then .undefeated else .defeated)
      return result) P := by
  refine hm.bind fun T r hST hT hr ↦ ?_
  refine (setStatus hT (ha.mono hST.cast) (by simp)).bind fun U _ hTU hU _ ↦ ?_
  exact .pure hU (hP T U r hr hTU)

end Search.Upholds

structure Dispute.OnStage (d : Dispute) (S : Stage) : Prop where
  pro : ∀ a ∈ d.pro, S.Has .pro a
  opp : ∀ a ∈ d.opp, S.Has .opp a

namespace Dispute.OnStage

variable {S T : Stage} {d : Dispute} {y z : Argument}

theorem seeded (h : S.Has .pro z) : (seeded z).OnStage S :=
  ⟨by simpa [Dispute.seeded] using h, by simp [Dispute.seeded]⟩

theorem mono (h : d.OnStage S) (hST : S.cast ≤ T.cast) : d.OnStage T :=
  ⟨fun a ha ↦ (h.pro a ha).mono hST, fun a ha ↦ (h.opp a ha).mono hST⟩

theorem concede (h : d.OnStage S) (hy : S.Has .opp y) : (d.concede y).OnStage S := by
  refine ⟨h.pro, fun a ha ↦ ?_⟩
  rcases List.mem_append.mp ha with ha | ha
  · exact h.opp a ha
  · exact List.mem_singleton.mp ha ▸ hy

theorem exchange (h : d.OnStage S) (hy : S.Has .opp y) (hz : S.Has .pro z) :
    (d.exchange y z).OnStage S := by
  refine ⟨fun a ha ↦ ?_, (h.concede hy).opp⟩
  rcases List.mem_append.mp ha with ha | ha
  · exact h.pro a ha
  · exact List.mem_singleton.mp ha ▸ hz

end Dispute.OnStage

namespace Grounded

open Search (Upholds)

variable {arena : Arena} {S : Stage} {defend : Dispute → Search (Option Dispute)}

def KeepsSides (arena : Arena) (defend : Dispute → Search (Option Dispute)) : Prop :=
  ∀ (S : Stage) (d : Dispute), S.Sound arena → d.OnStage S →
    Upholds arena S (defend d) fun T r ↦ ∀ d', r = some d' → d'.OnStage T

theorem firstDefence_keepsSides (hdefend : KeepsSides arena defend) (hS : S.Sound arena)
    {d : Dispute} (hd : d.OnStage S) {y : Argument} (hy : S.Has .opp y) {es : List AttackerEntry}
    (hes : ∀ e ∈ es, S.Has .pro e.attacker ∧ e.attacker.attacks arena.restricted y = true) :
    Upholds arena S (firstDefence arena defend d y es) fun T r ↦
      ∀ d', r = some d' → d'.OnStage T ∧ (T.proof.defenders.lookup y.id).isSome := by
  induction es generalizing S with
  | nil => exact .pure hS (by simp)
  | cons e es ih =>
    obtain ⟨⟨he, hattacks⟩, hes⟩ := List.forall_mem_cons.mp hes
    simp only [firstDefence]
    split
    · exact ih hS hd hy hes
    refine (hdefend S _ hS (hd.exchange hy he)).bind fun T r hST hT hr ↦ ?_
    cases r with
    | none =>
      exact ih hT (hd.mono hST.cast) (hy.mono hST.cast) fun x hx ↦
        ⟨(hes x hx).1.mono hST.cast, (hes x hx).2⟩
    | some d' =>
      refine (Upholds.addDefender hT (hy.mono hST.cast) (he.mono hST.cast) hattacks).bind ?_
      rintro U - hTU hU ⟨-, hproof⟩
      refine .pure hU ?_
      rintro _ ⟨⟩
      refine ⟨(hr d' rfl).mono hTU.cast, ?_⟩
      rw [hproof, Proof.lookup_addDefender, if_pos rfl]
      rfl

theorem answerAll_keepsSides (hdefend : KeepsSides arena defend) (hS : S.Sound arena) {d : Dispute}
    (hd : d.OnStage S) {es : List AttackerEntry} (hes : ∀ e ∈ es, S.Has .opp e.attacker) :
    Upholds arena S (answerAll arena defend es d) fun T r ↦ ∀ d', r = some d' → d'.OnStage T := by
  induction es generalizing S d with
  | nil => exact .pure hS (by rintro _ ⟨⟩; exact hd)
  | cons e es ih =>
    obtain ⟨he, hes⟩ := List.forall_mem_cons.mp hes
    simp only [answerAll]
    refine (Upholds.attackersOf hS he).bind fun T replies hST hT ⟨_, hreplies⟩ ↦ ?_
    refine (firstDefence_keepsSides hdefend hT (hd.mono hST.cast) (he.mono hST.cast)
      hreplies).bind fun U r hTU hU hr ↦ ?_
    have hSU := hST.trans hTU
    cases r with
    | none => exact .pure hU (by simp)
    | some d' =>
      obtain ⟨hd', hdefenders⟩ := hr d' rfl
      refine (Upholds.setStatus hU (he.mono hSU.cast) fun _ ↦ ⟨rfl, hdefenders⟩).bind
        fun V _ hUV hV _ ↦ ?_
      exact ih hV (hd'.mono hUV.cast) fun x hx ↦ (hes x hx).mono (hSU.trans hUV).cast

theorem defend_keepsSides (arena : Arena) (moves : ℕ) :
    KeepsSides arena (Grounded.defend arena moves) := by
  induction moves with
  | zero => exact fun S d _ _ r τ hrun ↦ by cases hrun
  | succ moves ih =>
    intro S d hS hd
    rw [Grounded.defend]
    cases hlast : d.pro.getLast? with
    | none => exact .pure hS (by simp)
    | some a =>
      have ha := hd.pro a (List.mem_of_getLast? hlast)
      refine (Upholds.attackersOf hS ha).bind fun T es hST hT ⟨_, hes⟩ ↦ ?_
      refine .settled (ha.mono hST.cast) ?_ fun T U r hr hTU d' hd' ↦ (hr d' hd').mono hTU.cast
      exact answerAll_keepsSides ih hT (hd.mono hST.cast) fun e he ↦ (hes e he).1

end Grounded

end Argumentation
