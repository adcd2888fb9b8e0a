import Argumentation.Proofs.Dialogue.Tandem
import Argumentation.Proofs.RelatedLists

namespace Argumentation

open Session (InStep)

namespace Passage

/-- Argument by argument, the second dispute is what the first one is in the other session. -/
structure MeetsDispute (w : Passage) (play : Set ArgumentId) (d d' : Dispute) : Prop where
  pro : List.Forall₂ (w.Meets play) d.pro d'.pro
  opp : List.Forall₂ (w.Meets play) d.opp d'.opp

def MeetsOutcome (w : Passage) (play : Set ArgumentId) (r r' : Option Dispute) : Prop :=
  Option.Rel (w.MeetsDispute play) r r'

namespace MeetsDispute

variable {v w : Passage} {play : Set ArgumentId} {d d' : Dispute} {a b x y : Argument}
  {restricted : Bool}

theorem seeded (h : w.Meets play a b) : w.MeetsDispute play (.seeded a) (.seeded b) :=
  ⟨.cons h .nil, .nil⟩

theorem mono (hw : v ≤ w) (h : v.MeetsDispute play d d') : w.MeetsDispute play d d' :=
  ⟨h.pro.imp fun _ _ ↦ Meets.mono hw, h.opp.imp fun _ _ ↦ Meets.mono hw⟩

theorem concede (h : w.MeetsDispute play d d') (hab : w.Meets play a b) :
    w.MeetsDispute play (d.concede a) (d'.concede b) :=
  ⟨h.pro, List.rel_append h.opp (.cons hab .nil)⟩

theorem exchange (h : w.MeetsDispute play d d') (hab : w.Meets play a b)
    (hxy : w.Meets play x y) : w.MeetsDispute play (d.exchange a x) (d'.exchange b y) :=
  ⟨List.rel_append h.pro (.cons hxy .nil), (h.concede hab).opp⟩

theorem proContains (h : w.MeetsDispute play d d') (hab : w.Meets play a b) :
    d'.proContains b = d.proContains a :=
  any_eq_of_forall₂ h.pro fun _ _ hxy ↦ hxy.isSimilar hab

theorem oppContains (h : w.MeetsDispute play d d') (hab : w.Meets play a b) :
    d'.oppContains b = d.oppContains a :=
  any_eq_of_forall₂ h.opp fun _ _ hxy ↦ hxy.isSimilar hab

theorem conflicts (h : w.MeetsDispute play d d') (hab : w.Meets play a b) (arena : Arena) :
    Preferred.conflicts arena b d'.pro = Preferred.conflicts arena a d.pro :=
  any_eq_of_forall₂ h.pro fun _ _ hxy ↦ by rw [hab.attacks hxy, hxy.attacks hab]

theorem find? (h : w.MeetsDispute play d d') (hab : w.Meets play a b) (restricted : Bool) :
    Option.Rel (w.Meets play) (d.pro.find? (·.attacks restricted a))
      (d'.pro.find? (·.attacks restricted b)) :=
  find?_of_forall₂ h.pro fun _ _ hxy ↦ hxy.attacks hab restricted

end MeetsDispute

theorem MeetsOutcome.mono {v w : Passage} {play : Set ArgumentId} {r r' : Option Dispute}
    (hw : v ≤ w) (h : v.MeetsOutcome play r r') : w.MeetsOutcome play r r' := by
  cases h with
  | none => exact .none
  | some h => exact .some (h.mono hw)

end Passage

namespace Search

variable {play : Set ArgumentId} {v w : Passage} {f f' : Dispute → Search (Option Dispute)}

def InTandem (play : Set ArgumentId) (w : Passage) (f f' : Dispute → Search (Option Dispute)) :
    Prop :=
  ∀ w' σ σ' d d', w ≤ w' → InStep w' play σ σ' → w'.MeetsDispute play d d' →
    Tandem play (fun w'' ↦ w''.MeetsOutcome play) w' σ σ' (f d) (f' d')

theorem InTandem.mono (hw : v ≤ w) (h : InTandem play v f f') : InTandem play w f f' :=
  fun w' σ σ' d d' hw' ↦ h w' σ σ' d d' (Passage.le_trans hw hw')

/-- The verdicts on two arguments are given when their defences are over. -/
theorem Tandem.settled {σ σ' : Session} {m m' : Search (Option Dispute)}
    (hm : Tandem play (fun w' ↦ w'.MeetsOutcome play) w σ σ' m m') (a b : Argument) :
    Tandem play (fun w' ↦ w'.MeetsOutcome play) w σ σ'
      (do
        let result ← m
        Search.setStatus a (if result.isSome then .undefeated else .defeated)
        return result)
      (do
        let result ← m'
        Search.setStatus b (if result.isSome then .undefeated else .defeated)
        return result) := by
  refine hm.bind fun w' τ τ' r r' _ hτ hr ↦ ?_
  refine (Tandem.quiet (setStatus_quiet _ _) (setStatus_quiet _ _) hτ).bind ?_
  exact fun w'' υ υ' _ _ hw hυ _ ↦ .pure hυ (hr.mono hw)

end Search

open Search (Tandem InTandem)

variable {arena : Arena} {play : Set ArgumentId} {w : Passage} {σ σ' : Session} {d d' : Dispute}
  {y y' : Argument} {es es' : List AttackerEntry}
  {defend defend' others others' : Dispute → Search (Option Dispute)}

namespace Grounded

theorem firstDefence_tandem (hdefend : InTandem play w defend defend') (hσ : InStep w play σ σ')
    (hd : w.MeetsDispute play d d') (hy : w.Meets play y y')
    (hes : w.MeetsEntries play es es') :
    Tandem play (fun w' ↦ w'.MeetsOutcome play) w σ σ' (firstDefence arena defend d y es)
      (firstDefence arena defend' d' y' es') := by
  induction es generalizing w σ σ' es' with
  | nil =>
    cases hes
    exact .pure hσ .none
  | cons e es ih =>
    obtain - | ⟨he, hes⟩ := hes
    simp only [firstDefence, hd.proContains he, hy.attacks he]
    split
    · exact ih hdefend hσ hd hy hes
    refine (hdefend w σ σ' _ _ (Passage.le_refl w) hσ (hd.exchange hy he)).bind
      fun w' τ τ' r r' hw hτ hr ↦ ?_
    cases hr with
    | none =>
      exact ih (hdefend.mono hw) hτ (hd.mono hw) (hy.mono hw) (Passage.MeetsEntries.mono hw hes)
    | some hr =>
      refine (Tandem.quiet (Search.addDefender_quiet _ _) (Search.addDefender_quiet _ _) hτ).bind ?_
      exact fun w'' υ υ' _ _ hw' hυ _ ↦ .pure hυ (.some (hr.mono hw'))

theorem answerAll_tandem (hdefend : InTandem play w defend defend') (hσ : InStep w play σ σ')
    (hd : w.MeetsDispute play d d') (hes : w.MeetsEntries play es es') :
    Tandem play (fun w' ↦ w'.MeetsOutcome play) w σ σ' (answerAll arena defend es d)
      (answerAll arena defend' es' d') := by
  induction es generalizing w σ σ' d d' es' with
  | nil =>
    cases hes
    exact .pure hσ (.some hd)
  | cons e es ih =>
    obtain - | ⟨he, hes⟩ := hes
    simp only [answerAll]
    refine (Tandem.attackersOf hσ he).bind fun w' τ τ' replies replies' hw hτ hreplies ↦ ?_
    refine (firstDefence_tandem (hdefend.mono hw) hτ (hd.mono hw) (he.mono hw) hreplies).bind
      fun w'' υ υ' r r' hw' hυ hr ↦ ?_
    cases hr with
    | none => exact .pure hυ .none
    | some hr =>
      refine (Tandem.quiet (Search.setStatus_quiet _ _) (Search.setStatus_quiet _ _) hυ).bind
        fun u ρ ρ' _ _ hu hρ _ ↦ ?_
      have hw := Passage.le_trans hw (Passage.le_trans hw' hu)
      exact ih (hdefend.mono hw) hρ (hr.mono hu) (Passage.MeetsEntries.mono hw hes)

theorem defend_tandem (arena : Arena) (moves : ℕ) (play : Set ArgumentId) (w : Passage) :
    InTandem play w (Grounded.defend arena moves) (Grounded.defend arena moves) := by
  induction moves generalizing w with
  | zero => exact fun _ _ _ _ _ _ _ _ ↦ .inl ⟨rfl, rfl⟩
  | succ moves ih =>
    intro w' σ σ' d d' hw hσ hd
    rw [Grounded.defend, Grounded.defend]
    have hlast := getLast?_of_forall₂ hd.pro
    generalize d.pro.getLast? = a, d'.pro.getLast? = b at hlast ⊢
    cases hlast with
    | none => exact .pure hσ .none
    | some ha =>
      refine (Tandem.attackersOf hσ ha).bind fun w'' τ τ' es es' hw' hτ hes ↦ ?_
      exact (answerAll_tandem (ih w'') hτ (hd.mono hw') hes).settled _ _

end Grounded

namespace Preferred

theorem firstDefence_tandem (hdefend : InTandem play w defend defend')
    (hothers : InTandem play w others others') (hσ : InStep w play σ σ')
    (hd : w.MeetsDispute play d d') (hy : w.Meets play y y')
    (hes : w.MeetsEntries play es es') :
    Tandem play (fun w' ↦ w'.MeetsOutcome play) w σ σ' (firstDefence arena defend others d y es)
      (firstDefence arena defend' others' d' y' es') := by
  induction es generalizing w σ σ' es' with
  | nil =>
    cases hes
    exact .pure hσ .none
  | cons e es ih =>
    obtain - | ⟨he, hes⟩ := hes
    have hrest (w' : Passage) (τ τ' : Session) (hw : w ≤ w') (hτ : InStep w' play τ τ') :=
      ih (hdefend.mono hw) (hothers.mono hw) hτ (hd.mono hw) (hy.mono hw)
        (Passage.MeetsEntries.mono hw hes)
    simp only [firstDefence, hd.oppContains he, hd.conflicts he]
    split
    · exact hrest w σ σ' (Passage.le_refl w) hσ
    refine (hdefend w σ σ' _ _ (Passage.le_refl w) hσ (hd.exchange hy he)).bind
      fun w' τ τ' r r' hw hτ hr ↦ ?_
    cases hr with
    | none => exact hrest w' τ τ' hw hτ
    | some hr =>
      refine (hothers w' τ τ' _ _ hw hτ hr).bind fun w'' υ υ' r r' hw' hυ hr ↦ ?_
      cases hr with
      | none => exact hrest w'' υ υ' (Passage.le_trans hw hw') hυ
      | some hr =>
        refine (Tandem.quiet (Search.addDefender_quiet _ _) (Search.addDefender_quiet _ _)
          hυ).bind fun u ρ ρ' _ _ hu hρ _ ↦ ?_
        refine (Tandem.quiet (Search.setStatus_quiet _ _) (Search.setStatus_quiet _ _) hρ).bind ?_
        exact fun u' π π' _ _ hu' hπ _ ↦ .pure hπ (.some (hr.mono (Passage.le_trans hu hu')))

theorem answerAll_tandem (hdefend : InTandem play w defend defend')
    (hes : w.MeetsEntries play es es') :
    InTandem play w (answerAll arena defend es) (answerAll arena defend' es') := by
  induction es generalizing w es' with
  | nil =>
    cases hes
    exact fun w' σ σ' d d' _ hσ hd ↦ .pure hσ (.some hd)
  | cons e es ih =>
    obtain - | ⟨he, hes⟩ := hes
    have hothers := ih hdefend hes
    intro w' σ σ' d d' hw hσ hd
    have he := he.mono hw
    simp only [answerAll, hd.oppContains he, hd.proContains he]
    split
    · exact hothers w' σ σ' d d' hw hσ hd
    split
    · exact .pure hσ .none
    have hanswers := hd.find? he arena.restricted
    generalize d.pro.find? _ = p, d'.pro.find? _ = p' at hanswers ⊢
    cases hanswers with
    | some hp =>
      refine (Tandem.quiet (Search.addDefender_quiet _ _) (Search.addDefender_quiet _ _)
        hσ).bind fun w'' τ τ' _ _ hw' hτ _ ↦ ?_
      refine (Tandem.quiet (Search.setStatus_quiet _ _) (Search.setStatus_quiet _ _) hτ).bind
        fun u υ υ' _ _ hu hυ _ ↦ ?_
      have hwu := Passage.le_trans hw' hu
      exact hothers u υ υ' _ _ (Passage.le_trans hw hwu) hυ ((hd.concede he).mono hwu)
    | none =>
      refine (Tandem.attackersOf hσ he).bind fun w'' τ τ' replies replies' hw' hτ hreplies ↦ ?_
      have hw := Passage.le_trans hw hw'
      exact firstDefence_tandem (hdefend.mono hw) (hothers.mono hw) hτ (hd.mono hw') (he.mono hw')
        hreplies

theorem defend_tandem (arena : Arena) (moves : ℕ) (play : Set ArgumentId) (w : Passage) :
    InTandem play w (Preferred.defend arena moves) (Preferred.defend arena moves) := by
  induction moves generalizing w with
  | zero => exact fun _ _ _ _ _ _ _ _ ↦ .inl ⟨rfl, rfl⟩
  | succ moves ih =>
    intro w' σ σ' d d' hw hσ hd
    rw [Preferred.defend, Preferred.defend]
    have hlast := getLast?_of_forall₂ hd.pro
    generalize d.pro.getLast? = a, d'.pro.getLast? = b at hlast ⊢
    cases hlast with
    | none => exact .pure hσ .none
    | some ha =>
      refine (Tandem.attackersOf hσ ha).bind fun w'' τ τ' es es' hw' hτ hes ↦ ?_
      refine Tandem.settled ?_ _ _
      exact answerAll_tandem (ih w'') hes w'' τ τ' _ _ (Passage.le_refl w'') hτ (hd.mono hw')

end Preferred

def Session.fresh (s : Supply) : Session :=
  ⟨.empty, s⟩

/-- The numbers of the argument were taken, but its attackers were not looked for yet. Neither were
those of any argument whose number is free. -/
structure Session.Unaware (σ : Session) (a : Argument) : Prop where
  fits : a.Fits σ.supply
  unknown : σ.proof.attackers.lookup a.id = none
  free : ∀ id, σ.supply.freeArgument ≤ id → σ.proof.attackers.lookup id = none

namespace Session.Unaware

variable {a : Argument} {s t : Supply}

theorem fresh (h : a.Fits s) : (Session.fresh s).Unaware a :=
  ⟨h, rfl, fun _ _ ↦ rfl⟩

theorem inStep (h : σ.Unaware a) (hle : σ.supply ≤ t) :
    InStep (.keeping hle) (insert a.id (Set.Ici σ.supply.freeArgument)) σ (.fresh t) where
  source := rfl
  target := rfl
  free id hid := ⟨.inr hid, h.free id hid⟩
  known id hid found hf := by
    have hnone : σ.proof.attackers.lookup id = none := by
      rcases hid with rfl | hid
      · exact h.unknown
      · exact h.free id hid
    rw [hnone] at hf
    cases hf
  recalled _ _ hf := by cases hf

end Session.Unaware

namespace Semantics

variable (semantics : Semantics) (arena : Arena) (moves : ℕ)

theorem defend_tandem (play : Set ArgumentId) (w : Passage) :
    InTandem play w (semantics.defend arena moves) (semantics.defend arena moves) := by
  cases semantics with
  | grounded => exact Grounded.defend_tandem arena moves play w
  | preferredCredulous => exact Preferred.defend_tandem arena moves play w

theorem evaluate_tandem (hσ : InStep w play σ σ') {a b : Argument} (hab : w.Meets play a b) :
    Tandem play (fun w' ↦ w'.MeetsOutcome play) w σ σ' (semantics.evaluate arena moves a)
      (semantics.evaluate arena moves b) := by
  refine (Tandem.quiet (Search.record_quiet a) (Search.record_quiet b) hσ).bind
    fun w' τ τ' _ _ hw hτ _ ↦ ?_
  exact semantics.defend_tandem arena moves play w' w' τ τ' _ _ (Passage.le_refl w') hτ
    (.seeded (hab.mono hw))

def verdict? (semantics : Semantics) (arena : Arena) (moves : ℕ) (a : Argument) (σ : Session) :
    Option Bool :=
  (semantics.evaluate arena moves a σ).map (·.1.isSome)

variable {a : Argument}

theorem verdict?_eq_fresh (h : σ.Unaware a) {t : Supply} (hle : σ.supply ≤ t) :
    semantics.verdict? arena moves a σ = semantics.verdict? arena moves a (.fresh t) := by
  have hmeets : (Passage.keeping hle).Meets (insert a.id (Set.Ici σ.supply.freeArgument)) a a :=
    ⟨⟨h.fits, (Passage.carry_keeping hle a).symm⟩, .inl rfl⟩
  rcases semantics.evaluate_tandem arena moves (h.inStep hle) hmeets with
    ⟨hnone, hnone'⟩ | ⟨r, τ, r', τ', w', hsome, hsome', -, -, hr⟩
  · rw [verdict?, verdict?, hnone, hnone']
  · rw [verdict?, verdict?, hsome, hsome']
    cases hr <;> rfl

/-- The verdict on an argument is the same in all sessions that do not know of it. -/
theorem verdict?_congr (h : σ.Unaware a) (h' : σ'.Unaware a) :
    semantics.verdict? arena moves a σ = semantics.verdict? arena moves a σ' := by
  obtain ⟨t, hle, hle'⟩ := σ.supply.exists_le σ'.supply
  rw [semantics.verdict?_eq_fresh arena moves h hle,
    semantics.verdict?_eq_fresh arena moves h' hle']

end Semantics

end Argumentation
