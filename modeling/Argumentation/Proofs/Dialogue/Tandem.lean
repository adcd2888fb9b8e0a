import Argumentation.Dialogue.Semantics
import Argumentation.Proofs.Argument.Twins
import Argumentation.Proofs.Dialogue.Findings
import Argumentation.Proofs.Dialogue.Mirror

namespace Argumentation

open Passage (Carries)

/-- The numbers of all arguments that were found, and of their targets, were taken. -/
structure Attackers.Fits (s : Supply) (found : Attackers) : Prop where
  attackers : ∀ e ∈ found.successful, e.attacker.Fits s
  targets : ∀ e ∈ found.successful, e.attack.target.Fits s
  unsuccessful : ∀ a ∈ found.unsuccessful, a.Fits s

namespace Attackers.Fits

variable {s t : Supply} {found : Attackers} {attack : Attack} {a : Argument}

theorem none (s : Supply) : Attackers.none.Fits s :=
  ⟨by simp [Attackers.none], by simp [Attackers.none], by simp [Attackers.none]⟩

theorem mono (h : found.Fits s) (hst : s ≤ t) : found.Fits t :=
  ⟨fun e he ↦ (h.attackers e he).mono hst, fun e he ↦ (h.targets e he).mono hst,
    fun a ha ↦ (h.unsuccessful a ha).mono hst⟩

theorem enter (h : found.Fits s) (htarget : attack.target.Fits s) (ha : a.Fits s) (arena : Arena) :
    (arena.enter attack found a).Fits s := by
  unfold Arena.enter
  split
  · exact ⟨h.attackers, h.targets, by simpa [or_imp, forall_and] using ⟨h.unsuccessful, ha⟩⟩
  split
  · exact h
  · exact ⟨by simpa [or_imp, forall_and] using ⟨h.attackers, ha⟩,
      by simpa [or_imp, forall_and] using ⟨h.targets, htarget⟩, h.unsuccessful⟩

end Attackers.Fits

namespace Argument.Fits

variable {s : Supply} {a : Argument} {name : Term}

theorem ruleName (h : a.Fits s) (hname : a.ruleName? = some name) : Below s.freeVariable name := by
  obtain ⟨n, hn, rfl⟩ := Option.map_eq_some_iff.mp hname
  refine Substitution.below_apply h.substitution (Below.iff_forall.mpr fun π hπ ↦ ?_)
  have hrule : a.rule.name.map (π • ·) = a.rule.name :=
    congrArg Rule.name (Below.iff_forall.mp h.rule π hπ)
  rwa [hn, Option.map_some, Option.some.injEq] at hrule

theorem denial (h : a.Fits s) {d : Term × Attack} (hd : d ∈ a.denials) :
    Below s.freeVariable d.1 ∧ d.2.target.Fits s := by
  have hnegation {t g : Term} (ht : Below s.freeVariable t) (hg : t.negation? = some g) :
      Below s.freeVariable g := by
    refine Below.iff_forall.mpr fun π hπ ↦ ?_
    have hsmul := t.negation?_smul π
    rw [Below.iff_forall.mp ht π hπ, hg] at hsmul
    exact (Option.some.inj hsmul).symm
  obtain ⟨g, attack⟩ := d
  obtain ⟨node, hnode, ⟨-, hg, rfl⟩ | ⟨-, hg, rfl⟩⟩ := mem_denials.mp hd
  · exact ⟨hnegation (h.of_mem_subtree hnode).claim hg, h.of_mem_subtree hnode⟩
  · obtain ⟨name, hname, hg⟩ := Option.bind_eq_some_iff.mp hg
    exact ⟨hnegation ((h.of_mem_subtree hnode).ruleName hname) hg, h.of_mem_subtree hnode⟩

end Argument.Fits

namespace Passage

variable {v w : Passage} {a b : Argument} {found found' : Attackers}

theorem carryAttack_congr (h : v ≤ w) {attack : Attack} (ha : attack.target.Fits v.source) :
    w.carryAttack attack = v.carryAttack attack := by
  rw [carryAttack, carryAttack, carry_congr h ha]

def CarriesAttackers (w : Passage) (found found' : Attackers) : Prop :=
  found.Fits w.source ∧ found' = w.carryAttackers found

theorem CarriesAttackers.mono (hw : v ≤ w) (h : v.CarriesAttackers found found') :
    w.CarriesAttackers found found' := by
  refine ⟨h.1.mono hw.source, h.2.trans ?_⟩
  have hsuccessful : found.successful.map v.carryEntry = found.successful.map w.carryEntry := by
    refine List.map_congr_left fun e he ↦ ?_
    rw [carryEntry, carryEntry, carry_congr hw (h.1.attackers e he),
      carryAttack_congr hw (h.1.targets e he)]
  have hunsuccessful : found.unsuccessful.map v.carry = found.unsuccessful.map w.carry :=
    List.map_congr_left fun a ha ↦ (carry_congr hw (h.1.unsuccessful a ha)).symm
  rw [carryAttackers, carryAttackers, hsuccessful, hunsuccessful]

theorem CarriesAttackers.none (w : Passage) : w.CarriesAttackers .none .none :=
  ⟨.none _, rfl⟩

def CarriesDenial (w : Passage) (d d' : Term × Attack) : Prop :=
  (Below w.source.freeVariable d.1 ∧ d.2.target.Fits w.source) ∧
    d' = (w.vars • d.1, w.carryAttack d.2)

theorem CarriesDenial.mono (hw : v ≤ w) {d d' : Term × Attack} (h : v.CarriesDenial d d') :
    w.CarriesDenial d d' := by
  obtain ⟨⟨hgoal, htarget⟩, rfl⟩ := h
  refine ⟨⟨hgoal.mono hw.source.1, htarget.mono hw.source⟩, ?_⟩
  rw [hgoal.smul_eq hw.vars, carryAttack_congr hw htarget]

theorem denials_carried (ha : a.Fits w.source) :
    List.Forall₂ w.CarriesDenial a.denials (w.carry a).denials := by
  rw [denials_carry]
  exact List.forall₂_map_right_iff.mpr (List.forall₂_same.mpr fun d hd ↦ ⟨ha.denial hd, rfl⟩)

end Passage

namespace Arena

variable (arena : Arena) {w : Passage} {a b : Argument}

def collect (x : Attackers × Supply) (d : Term × Attack) : Attackers × Supply :=
  let (candidates, s) := (arena.theory.arguments 0 d.1).toList x.2
  (candidates.foldl (arena.enter d.2) x.1, s)

theorem collect_twins {d d' : Term × Attack} (hd : w.CarriesDenial d d') {found found' : Attackers}
    (hfound : w.CarriesAttackers found found') :
    ∃ w', w ≤ w' ∧ w'.source = (arena.collect (found, w.source) d).2 ∧
      w'.target = (arena.collect (found', w.target) d').2 ∧
      w'.CarriesAttackers (arena.collect (found, w.source) d).1
        (arena.collect (found', w.target) d').1 := by
  obtain ⟨⟨hgoal, htarget⟩, rfl⟩ := hd
  obtain ⟨w', hw, hs, ht, hall⟩ :=
    (arena.theory.arguments_twins 0 hgoal).toList Carries.mono
  refine ⟨w', hw, hs, ht, ?_⟩
  have htarget' := htarget.mono hw.source
  have henter : Relator.LiftFun w'.CarriesAttackers
      (Relator.LiftFun (Carries w') w'.CarriesAttackers) (arena.enter d.2)
      (arena.enter (w.carryAttack d.2)) := by
    rintro f - ⟨hf, rfl⟩ c - ⟨hc, rfl⟩
    refine ⟨hf.enter htarget' hc arena, ?_⟩
    rw [← Passage.enter_carry, Passage.carryAttack_congr hw htarget]
  exact List.rel_foldl henter (hfound.mono hw) hall

theorem foldl_collect_twins {ds ds' : List (Term × Attack)}
    (hds : List.Forall₂ w.CarriesDenial ds ds') {found found' : Attackers}
    (hfound : w.CarriesAttackers found found') :
    ∃ w', w ≤ w' ∧ w'.source = (ds.foldl arena.collect (found, w.source)).2 ∧
      w'.target = (ds'.foldl arena.collect (found', w.target)).2 ∧
      w'.CarriesAttackers (ds.foldl arena.collect (found, w.source)).1
        (ds'.foldl arena.collect (found', w.target)).1 := by
  induction ds generalizing w ds' found found' with
  | nil =>
    cases hds
    exact ⟨w, Passage.le_refl w, rfl, rfl, hfound⟩
  | cons d ds ih =>
    cases hds with
    | cons hd hds =>
      obtain ⟨w', hw, hs, ht, hcollected⟩ := arena.collect_twins hd hfound
      obtain ⟨w'', hw', hrest⟩ := ih (hds.imp fun _ _ hd ↦ hd.mono hw) hcollected
      rw [hs, ht] at hrest
      exact ⟨w'', Passage.le_trans hw hw', hrest⟩

/-- The search for the attackers of an argument, and that for the attackers of what the argument is
in the other session. -/
theorem findAttackers_twins (hab : Carries w a b) :
    ∃ w', w ≤ w' ∧ w'.source = (arena.findAttackers a w.source).2 ∧
      w'.target = (arena.findAttackers b w.target).2 ∧
      w'.CarriesAttackers (arena.findAttackers a w.source).1
        (arena.findAttackers b w.target).1 := by
  obtain ⟨ha, rfl⟩ := hab
  exact arena.foldl_collect_twins (Passage.denials_carried ha) (.none w)

end Arena

def Passage.Meets (w : Passage) (play : Set ArgumentId) (a b : Argument) : Prop :=
  Carries w a b ∧ a.id ∈ play

/-- The sessions say the same of the arguments with numbers in play, to which all numbers belong
that are free in the first one. What the second one says is said of no others. -/
structure Session.InStep (w : Passage) (play : Set ArgumentId) (σ σ' : Session) : Prop where
  source : w.source = σ.supply
  target : w.target = σ'.supply
  free : ∀ id, σ.supply.freeArgument ≤ id → id ∈ play ∧ σ.proof.attackers.lookup id = none
  known : ∀ id ∈ play, ∀ found, σ.proof.attackers.lookup id = some found →
    ∃ found', σ'.proof.attackers.lookup (w.args id) = some found' ∧
      w.CarriesAttackers found found' ∧ ∀ e ∈ found.successful, e.attacker.id ∈ play
  recalled : ∀ id' found', σ'.proof.attackers.lookup id' = some found' →
    ∃ id ∈ play, w.args id = id' ∧ (σ.proof.attackers.lookup id).isSome

namespace Passage

variable {v w : Passage} {play : Set ArgumentId} {a b c d : Argument}

theorem Meets.mono (hw : v ≤ w) (h : v.Meets play a b) : w.Meets play a b :=
  ⟨Carries.mono v w a b hw h.1, h.2⟩

theorem Meets.isSimilar (h : w.Meets play a b) (h' : w.Meets play c d) :
    b.isSimilar d = a.isSimilar c := by
  rw [h.1.2, h'.1.2, isSimilar_carry]

theorem Meets.attacks (h : w.Meets play a b) (h' : w.Meets play c d) (restricted : Bool) :
    b.attacks restricted d = a.attacks restricted c := by
  rw [h.1.2, h'.1.2, attacks_carry]

def MeetsEntries (w : Passage) (play : Set ArgumentId) (es es' : List AttackerEntry) : Prop :=
  List.Forall₂ (fun e e' ↦ w.Meets play e.attacker e'.attacker) es es'

theorem MeetsEntries.mono (hw : v ≤ w) {es es' : List AttackerEntry}
    (h : v.MeetsEntries play es es') : w.MeetsEntries play es es' :=
  h.imp fun _ _ he ↦ he.mono hw

theorem CarriesAttackers.meets {found found' : Attackers} (h : w.CarriesAttackers found found')
    (hplay : ∀ e ∈ found.successful, e.attacker.id ∈ play) :
    w.MeetsEntries play found.successful found'.successful := by
  obtain ⟨hfits, rfl⟩ := h
  exact List.forall₂_map_right_iff.mpr (List.forall₂_same.mpr fun e he ↦
    ⟨⟨hfits.attackers e he, rfl⟩, hplay e he⟩)

end Passage

namespace Session.InStep

variable {w : Passage} {play : Set ArgumentId} {σ σ' τ τ' : Session} {a b : Argument}

theorem congr (h : InStep w play σ σ') (hattackers : τ.proof.attackers = σ.proof.attackers)
    (hsupply : τ.supply = σ.supply) (hattackers' : τ'.proof.attackers = σ'.proof.attackers)
    (hsupply' : τ'.supply = σ'.supply) : InStep w play τ τ' where
  source := hsupply ▸ h.source
  target := hsupply' ▸ h.target
  free := by rw [hsupply, hattackers]; exact h.free
  known := by rw [hattackers, hattackers']; exact h.known
  recalled := by rw [hattackers, hattackers']; exact h.recalled

theorem lt_free (h : InStep w play σ σ') {id : ArgumentId}
    (hid : (σ.proof.attackers.lookup id).isSome) : id < σ.supply.freeArgument := by
  by_contra hge
  rw [(h.free id (not_lt.mp hge)).2] at hid
  cases hid

theorem lookup_eq_none (h : InStep w play σ σ') (hab : w.Meets play a b)
    (hnone : σ.proof.attackers.lookup a.id = none) : σ'.proof.attackers.lookup b.id = none := by
  refine Option.eq_none_iff_forall_ne_some.mpr fun found' hfound' ↦ ?_
  -- It would be remembered there for an argument in play, and no other one becomes this number.
  obtain ⟨id, -, hid, hknown⟩ := h.recalled _ found' hfound'
  rw [hab.1.2, Passage.carry_id] at hid
  rw [w.args.injective hid, hnone] at hknown
  cases hknown

theorem looked (arena : Arena) (h : InStep w play σ σ') (hab : w.Meets play a b) :
    ∃ w', w ≤ w' ∧ InStep w' play (Search.looked arena a σ) (Search.looked arena b σ') ∧
      w'.MeetsEntries play (arena.findAttackers a σ.supply).1.successful
        (arena.findAttackers b σ'.supply).1.successful := by
  obtain ⟨w', hw, hs, ht, hfound⟩ := arena.findAttackers_twins hab.1
  rw [h.source] at hs hfound
  rw [h.target] at ht hfound
  obtain ⟨L, hL, hentered⟩ := arena.findAttackers_entered a σ.supply
  have hplay (e : AttackerEntry) (he : e ∈ (arena.findAttackers a σ.supply).1.successful) :
      e.attacker.id ∈ play := (h.free _ (hentered.id_mem hL he).1).1
  have hlookup (id : ArgumentId) : (Search.looked arena a σ).proof.attackers.lookup id =
      if id = a.id then some (arena.findAttackers a σ.supply).1
      else σ.proof.attackers.lookup id := Search.lookup_looked a σ id
  have hlookup' (id : ArgumentId) : (Search.looked arena b σ').proof.attackers.lookup id =
      if id = b.id then some (arena.findAttackers b σ'.supply).1
      else σ'.proof.attackers.lookup id := Search.lookup_looked b σ' id
  have hargs (id : ArgumentId) (hid : id < σ.supply.freeArgument) : w'.args id = w.args id :=
    hw.args id (h.source ▸ hid)
  have hlt : a.id < σ.supply.freeArgument := h.source ▸ hab.1.1.id_lt
  have hb : b.id = w.args a.id := by rw [hab.1.2, Passage.carry_id]
  refine ⟨w', hw, ⟨hs, ht, fun id hid ↦ ⟨?_, ?_⟩, fun id hid found hf ↦ ?_, fun id' found' hf ↦ ?_⟩,
    hfound.meets hplay⟩
  · exact (h.free id (hL.le.trans hid)).1
  · rw [hlookup, if_neg (Nat.ne_of_gt (hlt.trans_le (hL.le.trans hid)))]
    exact (h.free id (hL.le.trans hid)).2
  · rw [hlookup] at hf
    split at hf
    -- Either this argument was asked about now, or it has the attackers that it had before.
    · rename_i heq
      cases hf
      refine ⟨_, ?_, hfound, hplay⟩
      rw [hlookup', heq, hargs _ hlt, ← hb, if_pos rfl]
    · rename_i hne
      obtain ⟨found', hf', hcarries, hids⟩ := h.known id hid found hf
      refine ⟨found', ?_, hcarries.mono hw, hids⟩
      rw [hlookup', hargs _ (h.lt_free (Option.isSome_of_eq_some hf)), hb, if_neg, hf']
      exact fun heq ↦ hne (w.args.injective heq)
  · rw [hlookup'] at hf
    split at hf
    · rename_i heq
      refine ⟨a.id, hab.2, by rw [hargs _ hlt, ← hb, heq], ?_⟩
      rw [hlookup, if_pos rfl]
      rfl
    · obtain ⟨id, hid, hargs', hsome⟩ := h.recalled id' found' hf
      refine ⟨id, hid, by rw [hargs _ (h.lt_free hsome), hargs'], ?_⟩
      rw [hlookup]
      split
      · rfl
      · exact hsome

end Session.InStep

namespace Search

open Session (InStep)

def Tandem {α β : Type} (play : Set ArgumentId) (R : Passage → α → β → Prop) (w : Passage)
    (σ σ' : Session) (m : Search α) (m' : Search β) : Prop :=
  (m σ = none ∧ m' σ' = none) ∨ ∃ r τ r' τ' w', m σ = some (r, τ) ∧ m' σ' = some (r', τ') ∧
    w ≤ w' ∧ InStep w' play τ τ' ∧ R w' r r'

namespace Tandem

variable {α β γ δ : Type} {play : Set ArgumentId} {R R' : Passage → α → β → Prop}
  {Q : Passage → γ → δ → Prop} {w : Passage} {σ σ' : Session} {m : Search α} {m' : Search β}
  {arena : Arena} {a b : Argument}

theorem pure {r : α} {r' : β} (hσ : InStep w play σ σ') (h : R w r r') :
    Tandem play R w σ σ' (pure r) (pure r') :=
  .inr ⟨r, σ, r', σ', w, rfl, rfl, Passage.le_refl w, hσ, h⟩

theorem bind {k : α → Search γ} {k' : β → Search δ} (hm : Tandem play R w σ σ' m m')
    (hk : ∀ w' τ τ' r r', w ≤ w' → InStep w' play τ τ' → R w' r r' →
      Tandem play Q w' τ τ' (k r) (k' r')) :
    Tandem play Q w σ σ' (m >>= k) (m' >>= k') := by
  have hrun {ε ζ : Type} (n : Search ε) (l : ε → Search ζ) (ρ : Session) :
      (n >>= l) ρ = (n ρ).bind fun x ↦ l x.1 x.2 := rfl
  rcases hm with ⟨hnone, hnone'⟩ | ⟨r, τ, r', τ', w', hsome, hsome', hw, hτ, hr⟩
  · exact .inl ⟨by rw [hrun, hnone]; rfl, by rw [hrun, hnone']; rfl⟩
  · have hleft : (m >>= k) σ = k r τ := by rw [hrun, hsome]; rfl
    have hright : (m' >>= k') σ' = k' r' τ' := by rw [hrun, hsome']; rfl
    rw [Tandem, hleft, hright]
    rcases hk w' τ τ' r r' hw hτ hr with hnone | ⟨s, υ, s', υ', w'', hs, hs', hw', h⟩
    · exact .inl hnone
    · exact .inr ⟨s, υ, s', υ', w'', hs, hs', Passage.le_trans hw hw', h⟩

theorem quiet {u u' : Search Unit} (hu : u.Quiet) (hu' : u'.Quiet) (hσ : InStep w play σ σ') :
    Tandem play (fun _ _ _ ↦ True) w σ σ' u u' := by
  obtain ⟨τ, hrun, hattackers, hsupply⟩ := hu σ
  obtain ⟨τ', hrun', hattackers', hsupply'⟩ := hu' σ'
  exact .inr ⟨(), τ, (), τ', w, hrun, hrun', Passage.le_refl w,
    hσ.congr hattackers hsupply hattackers' hsupply', trivial⟩

/-- The attackers of an argument in play are remembered in both sessions, or looked for in both. -/
theorem attackersOf (hσ : InStep w play σ σ') (hab : w.Meets play a b) :
    Tandem play (fun w' ↦ w'.MeetsEntries play) w σ σ' (Search.attackersOf arena a)
      (Search.attackersOf arena b) := by
  cases hl : σ.proof.attackers.lookup a.id with
  | some found =>
    obtain ⟨found', hfound', hcarries, hplay⟩ := hσ.known _ hab.2 found hl
    rw [← Passage.carry_id, ← hab.1.2] at hfound'
    exact .inr ⟨_, σ, _, σ', w, attackersOf_known hl, attackersOf_known hfound',
      Passage.le_refl w, hσ, hcarries.meets hplay⟩
  | none =>
    obtain ⟨w', hw, hstep, hmeets⟩ := hσ.looked arena hab
    exact .inr ⟨_, _, _, _, w', attackersOf_new hl, attackersOf_new (hσ.lookup_eq_none hab hl),
      hw, hstep, hmeets⟩

end Tandem

end Search

end Argumentation
