import Argumentation.Proofs.Dialogue.Verdicts
import Argumentation.Proofs.Grounded.Determination

namespace Argumentation.Grounded

open AttackerEntry (ids ids_subset_cons singleton_subset_ids)

open Search (Replays Determines)

variable {arena : Arena} {S : Stage} {defend : Dispute → Search (Option Dispute)}

def verdict (accepted : Bool) : Status :=
  if accepted then .undefeated else .defeated

def Decides (arena : Arena) (defend : Dispute → Search (Option Dispute)) : Prop :=
  ∀ (S : Stage) (d : Dispute) (a : Argument), S.Sound arena → d.OnStage S →
    d.pro.getLast? = some a → S.proof.Blank a.id → Determines arena {a.id} S (defend d) fun T r ↦
      (∀ d', r = some d' → d'.OnStage T) ∧ T.proof.statuses.lookup a.id = some (verdict r.isSome)

theorem firstDefence_determines (hdefend : Decides arena defend) (hS : S.Sound arena) {d : Dispute}
    (hd : d.OnStage S) {y : Argument} (hy : S.Has .opp y) {es : List AttackerEntry}
    (hes : ∀ e ∈ es, S.Has .pro e.attacker ∧ e.attacker.attacks arena.restricted y = true)
    (hpending : S.proof.Pending es) :
    Determines arena (ids es) S (firstDefence arena defend d y es) fun T r ↦
      ∀ d', r = some d' → d'.OnStage T ∧ T.proof.Repelled y := by
  induction es generalizing S with
  | nil => exact .pure hS (by simp)
  | cons e es ih =>
    obtain ⟨⟨he, hattacks⟩, hes⟩ := List.forall_mem_cons.mp hes
    have hself : ({e.attacker.id} : Set ArgumentId) ⊆ ids (e :: es) := singleton_subset_ids
    have hsub : ids es ⊆ ids (e :: es) := ids_subset_cons
    simp only [firstDefence]
    split
    · exact (ih hS hd hy hes hpending.tail).mono hsub
    have hlast : (d.exchange y e.attacker).pro.getLast? = some e.attacker := by
      simp [Dispute.exchange]
    have hlt (x : AttackerEntry) (hx : x ∈ es) : x.attacker.id < S.free := hS.lt_free (hes x hx).1
    have hdefence := hdefend S _ _ hS (hd.exchange hy he) hlast (hpending.blank e (.head _))
    refine hdefence.bind (ids es) hself (fun id hid _ ↦ hsub hid) fun T r hST hT hframe _ hr ↦ ?_
    obtain ⟨hr, hstatus⟩ := hr
    cases r with
    | none =>
      exact ih hT (hd.mono hST.cast) (hy.mono hST.cast)
        (fun x hx ↦ ⟨(hes x hx).1.mono hST.cast, (hes x hx).2⟩)
        (hpending.tail.frame hframe hlt hpending.singleton_disjoint)
    | some d' =>
      refine (Determines.addDefender hT (hy.mono hST.cast) (he.mono hST.cast) hattacks).bind ∅
        (Set.empty_subset _) (by simp) ?_
      rintro U - hTU hU - hpersists ⟨-, hproof⟩
      refine .pure hU ?_
      rintro _ ⟨⟩
      obtain ⟨w, hw, hid⟩ := T.proof.exists_mem_defendersWith y e.attacker
      refine ⟨(hr d' rfl).mono hTU.cast, _, ?_, w, hw, ?_⟩
      · rw [hproof, Proof.lookup_addDefender, if_pos rfl]
      · rw [hid]
        exact hpersists.statuses _ _ hstatus

theorem answerAll_determines (hdefend : Decides arena defend) (hS : S.Sound arena) {d : Dispute}
    (hd : d.OnStage S) {es : List AttackerEntry} (hes : ∀ e ∈ es, S.Has .opp e.attacker)
    (hpending : S.proof.Pending es) :
    Determines arena (ids es) S (answerAll arena defend es d) fun T r ↦
      ∀ d', r = some d' → d'.OnStage T ∧ ∀ e ∈ es,
        T.proof.statuses.lookup e.attacker.id = some .defeated ∧ T.proof.Repelled e.attacker := by
  induction es generalizing S d with
  | nil => exact .pure hS (by rintro _ ⟨⟩; exact ⟨hd, by simp⟩)
  | cons e es ih =>
    obtain ⟨he, hes⟩ := List.forall_mem_cons.mp hes
    have hself : ({e.attacker.id} : Set ArgumentId) ⊆ ids (e :: es) := singleton_subset_ids
    have hsub : ids es ⊆ ids (e :: es) := ids_subset_cons
    simp only [answerAll]
    have hnot := hpending.singleton_disjoint
    have hlt (x : AttackerEntry) (hx : x ∈ es) : x.attacker.id < S.free := hS.lt_free (hes x hx)
    -- The counterattacks are found now, so their numbers were free.
    refine (Determines.attackersOf hS he (hpending.blank e (.head _)).1).bind
      (ids (e :: es) ∪ Set.Ici S.free) hself (fun id hid hold ↦ hid.resolve_right (not_le.mpr hold))
      fun T replies hST hT hframe _ hfound ↦ ?_
    obtain ⟨-, -, hreplies, hfresh, hnew⟩ := hfound
    have hfirst := firstDefence_determines hdefend hT (hd.mono hST.cast) (he.mono hST.cast) hreplies
      hfresh
    refine hfirst.bind (ids (e :: es)) ?_ (fun id hid _ ↦ .inl hid) fun U r hTU hU hframe' _ hr ↦ ?_
    · rintro id ⟨x, hx, rfl⟩
      exact .inr (hnew x hx)
    have hpending' : U.proof.Pending es := by
      refine hpending.tail.frame (hframe.trans hframe' ?_) hlt hnot
      rintro id ⟨x, hx, rfl⟩ hold
      exact absurd hold (not_lt.mpr (hnew x hx))
    have hSU := hST.trans hTU
    cases r with
    | none => exact .pure hU (by simp)
    | some d' =>
      obtain ⟨hd', hrepelled⟩ := hr d' rfl
      have hlt (x : AttackerEntry) (hx : x ∈ es) := (hlt x hx).trans_le hSU.free
      have hdefenders : (U.proof.defenders.lookup e.attacker.id).isSome := by
        obtain ⟨zs, hzs, -⟩ := hrepelled
        exact Option.isSome_of_eq_some hzs
      refine (Determines.setStatus hU (he.mono hSU.cast) (fun _ ↦ ⟨rfl, hdefenders⟩) ?_ ?_).bind
        (ids es) hself (fun id hid _ ↦ hsub hid) ?_
      · exact fun s hs ↦ (hU.status_of_opp (he.mono hSU.cast) hs).1
      · simp
      rintro V - hUV hV hframe'' hpersists ⟨-, hproof⟩
      have hSV := hSU.trans hUV
      have hdefeated : V.proof.statuses.lookup e.attacker.id = some .defeated := by
        rw [hproof, Proof.lookup_setStatus, if_pos rfl]
      refine (ih hV (hd'.mono hUV.cast) (fun x hx ↦ (hes x hx).mono hSV.cast)
        (hpending'.frame hframe'' hlt hnot)).imp fun W r _ hpersists' hr d'' hd'' ↦ ?_
      obtain ⟨hstage, hrest⟩ := hr d'' hd''
      refine ⟨hstage, List.forall_mem_cons.mpr ⟨⟨hpersists'.statuses _ _ hdefeated, ?_⟩, hrest⟩⟩
      exact hpersists'.repelled (hpersists.repelled hrepelled)

theorem defend_decides (arena : Arena) (moves : ℕ) :
    Decides arena (Grounded.defend arena moves) := by
  induction moves with
  | zero => exact fun S d a _ _ _ _ r τ hrun ↦ by cases hrun
  | succ moves ih =>
    intro S d a hS hd hlast hblank
    have ha := hd.pro a (List.mem_of_getLast? hlast)
    rw [Grounded.defend, hlast]
    have hself : ({a.id} : Set ArgumentId) ⊆ {a.id} := fun _ hid ↦ hid
    refine (Determines.attackersOf hS ha hblank.1).bind ({a.id} ∪ Set.Ici S.free) hself
      (fun id hid hold ↦ hid.resolve_right (not_le.mpr hold)) ?_
    rintro T es hST hT - - ⟨⟨found, hlookup, hsuccessful⟩, hstatuses, hes, hfresh, hnew⟩
    refine (answerAll_determines ih hT (hd.mono hST.cast) (fun e he ↦ (hes e he).1) hfresh).bind
      {a.id} ?_ (fun id hid _ ↦ .inl hid) fun U r hTU hU hframe hpersists hr ↦ ?_
    · rintro id ⟨e, he, rfl⟩
      exact .inr (hnew e he)
    have hSU := hST.trans hTU
    have hold := hS.lt_free ha
    -- No verdict on the argument was given on the way.
    have hunset : U.proof.statuses.lookup a.id = none := by
      rw [hframe.statuses a.id (hold.trans_le hST.free), hstatuses, hblank.2]
      rintro ⟨e, he, hid⟩
      exact absurd hold (not_lt.mpr (hid ▸ hnew e he))
    have hsafe (hr' : verdict r.isSome = .undefeated) : U.proof.Safe a.id := by
      cases r with
      | none => cases hr'
      | some d' => exact ⟨found, hpersists.attackers _ _ hlookup, hsuccessful ▸ (hr d' rfl).2⟩
    refine (Determines.setStatus hU (ha.mono hSU.cast) ?_ ?_ hsafe).bind ∅ hself (by simp) ?_
    · simp
    · intro s hs
      rw [hunset] at hs
      cases hs
    rintro V - hUV hV - - ⟨-, hproof⟩
    refine .pure hV ⟨fun d' hd' ↦ ?_, ?_⟩
    · exact (hr d' hd').1.mono hUV.cast
    · rw [hproof, Proof.lookup_setStatus, if_pos rfl]

def Tested (arena : Arena) (moves : ℕ) (p : Proof) (a : Argument) : Prop :=
  ∃ σ τ r, τ.proof = p ∧
    Replays Session.Persists (Semantics.grounded.evaluate arena moves a) σ r τ ∧
    p.statuses.lookup a.id = some (verdict r.isSome)

theorem Tested.mono {moves : ℕ} {p p' : Proof} {a : Argument} (h : Tested arena moves p a)
    (hp : p.Persists p') : Tested arena moves p' a := by
  obtain ⟨σ, τ, r, rfl, hreplays, hstatus⟩ := h
  exact ⟨σ, ⟨p', τ.supply⟩, r, rfl, hreplays.mono hp, hp.statuses _ _ hstatus⟩

/-- A certified stage in which nothing is known of a drawn argument until it is put to the test. -/
structure Standing (arena : Arena) (moves : ℕ) (L : Register Argument) (S : Stage) : Prop where
  ready : S.Ready arena L
  certified : S.proof.Certified
  drawn : ∀ a, a.EnteredIn L → S.proof.Blank a.id ∨ Tested arena moves S.proof a

variable {moves : ℕ} {L : Register Argument} {a : Argument} {r : Option Dispute} {τ : Session}

theorem Standing.test (h : Standing arena moves L S) (ha : a.EnteredIn L)
    (hblank : S.proof.Blank a.id)
    (hrun : Semantics.grounded.evaluate arena moves a S.session = some (r, τ)) :
    ∃ C, Standing arena moves L ⟨C, τ⟩ ∧ S.Follows ⟨C, τ⟩ ∧ S.proof.Persists τ.proof ∧
      τ.proof.statuses.lookup a.id = some (verdict r.isSome) := by
  obtain ⟨_, ρ, hrecord, hrun⟩ := Search.bind_eq_some.mp hrun
  cases hrecord
  have hpersists := S.proof.persists_record a
  have hback := S.proof.record_persists a
  obtain ⟨C, hleads, hsound, hdetermined, -, hstatus⟩ :=
    defend_decides arena moves (S.seeded a) _ a (h.ready.seeded ha) (.seeded (S.has_seeded a)) rfl
      (hblank.of_persists hback) r τ hrun
  have hrecord : Replays Session.Persists (Search.updateProof (·.record a)) S.session ()
      (S.seeded a).session :=
    ⟨hpersists, fun ρ _ ↦ ⟨_, rfl, ρ.proof.persists_record a, ρ.proof.record_persists a⟩⟩
  have hreplays : Replays Session.Persists (Semantics.grounded.evaluate arena moves a) S.session r
      τ := hrecord.bind hdetermined.replays
  refine ⟨C, ⟨h.ready.of_leads ha hsound hleads, hdetermined.certified ?_, fun b hb ↦ ?_⟩, ?_,
    hreplays.later, hstatus⟩
  · exact hpersists.certified h.certified fun id hid ↦ .inl (hback.statuses id _ hid)
  · by_cases hid : b.id = a.id
    · rw [Argument.EnteredIn, hid, ha, Option.some.injEq] at hb
      subst hb
      exact .inr ⟨_, τ, r, rfl, hreplays, hstatus⟩
    · refine (h.drawn b hb).imp (fun hb' ↦ ?_) fun hb' ↦ hb'.mono hreplays.later
      exact hdetermined.frame.blank (h.ready.lt_free hb) hid (hb'.of_persists hback)
  · exact ⟨Register.le_trans (h.ready.le_seeded ha) hleads.cast,
      (S.proof.record_enters a).grows.trans hleads.record⟩

/-- A stage in which an argument was tested again, and that says what was said before. -/
theorem Standing.again {T : Stage} (h : Standing arena moves L S) (hready : T.Ready arena L)
    (hle : S.proof.Persists T.proof) (hge : T.proof.Persists S.proof) :
    Standing arena moves L T where
  ready := hready
  certified := hle.certified h.certified fun id hid ↦ .inl (hge.statuses id _ hid)
  drawn b hb := (h.drawn b hb).imp (fun hb' ↦ hb'.of_persists hge) fun hb' ↦ hb'.mono hle

theorem Standing.evaluate (h : Standing arena moves L S) {T : Stage} (hready : T.Ready arena L)
    (hfollows : S.Follows T) (ha : a.EnteredIn L)
    (hrun : Semantics.grounded.evaluate arena moves a S.session = some (r, T.session)) :
    ∃ U, U.session = T.session ∧ Standing arena moves L U ∧ S.Follows U ∧
      S.proof.Persists U.proof ∧ U.proof.statuses.lookup a.id = some (verdict r.isSome) := by
  rcases h.drawn a ha with hblank | ⟨σ, τ, r', hproof, hreplays, hstatus⟩
  · obtain ⟨C, hC⟩ := h.test ha hblank hrun
    exact ⟨⟨C, T.session⟩, rfl, hC⟩
  · have hσ : τ.Persists S.session := by
      rw [Session.Persists, hproof]
      exact .refl S.proof
    obtain ⟨ρ, hrun', hle, hge⟩ := hreplays.repeated S.session hσ
    rw [hrun] at hrun'
    cases hrun'
    exact ⟨T, rfl, h.again hready hle hge, hfollows, hle, hle.statuses _ _ hstatus⟩

theorem keeps_standing {q : Query} (hq : q.settings.semantics = .grounded) (moves : ℕ) :
    q.Keeps moves Stage.session (Standing q.arena moves)
      (fun S T ↦ S.Follows T ∧ S.proof.Persists T.proof)
      fun S a b ↦ S.proof.statuses.lookup a.id = some (verdict b) := by
  have hkeeps : q.Keeps moves Stage.session (Stage.Ready q.arena) Stage.Follows
      fun S a _ ↦ S.Has .pro a ∧ True :=
    Query.keeps_sides (fun _ _ _ _ _ h ↦ h) fun S a hS ha ↦
      Semantics.defend_upholds _ _ _ hS (.seeded ha)
  refine ⟨fun S ↦ ⟨hkeeps.refl S, .refl _⟩, fun S T U h h' ↦
    ⟨hkeeps.trans _ _ _ h.1 h'.1, h.2.trans h'.2⟩, fun S T a b h hb ↦ h.2.statuses _ _ hb,
    ?_, ?_, ?_⟩
  · intro L S n h
    obtain ⟨T, hT, hready, hfollows⟩ := hkeeps.takeVariables L S n h.ready
    have hproof : T.proof = S.proof := by
      rw [Stage.proof, hT]
      rfl
    exact ⟨T, hT, h.again hready (hproof ▸ .refl _) (hproof ▸ .refl _), hfollows, hproof ▸ .refl _⟩
  · intro L S h
    obtain ⟨hfree, T, hT, hfollows, hready⟩ := hkeeps.takeArgument L S h.ready
    have hproof : T.proof = S.proof := by
      rw [Stage.proof, hT]
      rfl
    refine ⟨hfree, T, hT, ⟨hfollows, hproof ▸ .refl _⟩, fun b ↦ ⟨hready b, ?_, fun c hc ↦ ?_⟩⟩
    · rw [hproof]
      exact h.certified
    · rw [hproof]
      by_cases hid : c.id = S.free
      · -- The number was free until now.
        exact .inl (hid ▸ h.ready.sound.blank (h.ready.sound.free _ (Nat.le_refl _)))
      · rw [Argument.EnteredIn, Register.enter_of_ne hid] at hc
        exact h.drawn c hc
  · intro L S a r τ h ha hrun
    obtain ⟨T, rfl, hready, hfollows, -⟩ := hkeeps.evaluate L S a r τ h.ready ha hrun
    rw [hq] at hrun
    obtain ⟨U, hU, hstanding, hfollows', hpersists, hstatus⟩ :=
      h.evaluate hready hfollows ha hrun
    exact ⟨U, hU, hstanding, ⟨hfollows', hpersists⟩, hstatus⟩

theorem standing_fresh (arena : Arena) (moves next : ℕ) :
    Standing arena moves .empty (.fresh next) :=
  ⟨Stage.ready_fresh arena next, nofun, nofun⟩

theorem verdict_eq_undefeated {b : Bool} : verdict b = .undefeated ↔ b = true := by
  cases b <;> decide

/-- Whatever is undefeated in the proof has had its attackers looked for. All of them are defeated,
and among the defenders recorded against each is one that is undefeated and attacks it. An answer is
undefeated just if its arguments are. -/
theorem proof_certified (q : Query) (hq : q.settings.semantics = .grounded) (moves next : ℕ)
    (outcome : Outcome) (h : q.run moves next = some outcome) :
    (∀ a ∈ outcome.proof.arguments, outcome.proof.status a = .undefeated →
      ∃ found, outcome.proof.attackers.lookup a.id = some found ∧ ∀ e ∈ found.successful,
        outcome.proof.status e.attacker = .defeated ∧
        ∃ z ∈ outcome.proof.defendersFrom e.attacker, outcome.proof.status z = .undefeated ∧
          z.attacks q.settings.restricted e.attacker = true) ∧
      ∀ answer ∈ outcome.answers, answer.undefeated = true ↔
        ∀ a ∈ answer.arguments, outcome.proof.status a = .undefeated := by
  obtain ⟨L, S, hstanding, -, hproof, hjudged⟩ :=
    (keeps_standing hq moves).run rfl (standing_fresh q.arena moves next) h
  rw [← hproof]
  refine ⟨fun a _ hstatus ↦ ?_, fun answer hanswer ↦ ?_⟩
  · obtain ⟨found, hlookup, hfound⟩ :=
      hstanding.certified a.id (Proof.lookup_of_status hstatus nofun)
    obtain ⟨side, x, -, hsides⟩ := hstanding.ready.sound.attackers _ _ hlookup
    refine ⟨found, hlookup, fun e he ↦ ?_⟩
    obtain ⟨hdefeated, zs, hzs, z, hz, hundefeated⟩ := hfound e he
    obtain ⟨-, y, hy, hattack⟩ := hstanding.ready.sound.defenders _ _ hzs
    rw [show S.cast e.attacker.id = _ from (hsides e he).1, Option.some.injEq, Prod.mk.injEq] at hy
    refine ⟨by rw [Proof.status, hdefeated]; rfl, z, ?_, ?_, hy.2 ▸ (hattack z hz).2⟩
    · rw [Proof.defendersFrom, hzs]
      exact hz
    · rw [Proof.status, hundefeated]
      rfl
  · obtain ⟨-, verdicts, hverdicts, hall⟩ := hjudged answer hanswer
    rw [hall]
    refine all_verdicts_iff hverdicts fun a _ b hb ↦ ?_
    rw [Proof.status, hb, Option.getD_some, verdict_eq_undefeated]

/-- In `twoPremises` the argument for `~a` is all that attacks the one for `a`. It is defeated, and
`~q` is undefeated. -/
theorem twoPremises_certified :
    (twoPremises.query .grounded [.const "a"]).settings.semantics = .grounded ∧
    ∃ outcome, (twoPremises.query .grounded [.const "a"]).run 5 1 = some outcome ∧
      (∃ a ∈ outcome.proof.arguments, outcome.proof.status a = .undefeated ∧
        (outcome.proof.attackersOf a).successful ≠ []) ∧
    (∀ a ∈ outcome.proof.arguments, outcome.proof.status a = .undefeated →
      ∃ found, outcome.proof.attackers.lookup a.id = some found ∧ ∀ e ∈ found.successful,
        outcome.proof.status e.attacker = .defeated ∧
        ∃ z ∈ outcome.proof.defendersFrom e.attacker, outcome.proof.status z = .undefeated ∧
          z.attacks twoPremises.restricted e.attacker = true) ∧
      ∀ answer ∈ outcome.answers, answer.undefeated = true ↔
        ∀ a ∈ answer.arguments, outcome.proof.status a = .undefeated := by
  have hcheck : ((twoPremises.query .grounded [.const "a"]).run 5 1).any (fun outcome ↦
      outcome.proof.arguments.any fun a ↦ outcome.proof.status a = .undefeated &&
        !(outcome.proof.attackersOf a).successful.isEmpty) = true := by
    decide +kernel
  obtain ⟨outcome, hrun, houtcome⟩ := (Option.any_eq_true _ _).mp hcheck
  obtain ⟨a, ha, hattacked⟩ := List.any_eq_true.mp houtcome
  obtain ⟨hstatus, hattackers⟩ := Bool.and_eq_true_iff.mp hattacked
  exact ⟨rfl, outcome, hrun, ⟨a, ha, of_decide_eq_true hstatus, by simpa using hattackers⟩,
    proof_certified _ rfl 5 1 outcome hrun⟩

end Argumentation.Grounded
