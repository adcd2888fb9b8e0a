import Argumentation.Proofs.Dialogue.Roles

namespace Argumentation

theorem Argument.isSimilar_self (a : Argument) : a.isSimilar a = true := by
  rw [isSimilar_eq, beq_self_eq_true, Bool.true_or]

namespace Preferred

open Search (Upholds)

def Answered (p : Proof) (y : Argument) : Prop :=
  (p.statuses.lookup y.id).isSome ∧ (p.defenders.lookup y.id).isSome

theorem Answered.mono {p p' : Proof} {y : Argument} (h : Answered p y) (hp : p.Grows p') :
    Answered p' y := by
  obtain ⟨zs, hzs⟩ := Option.isSome_iff_exists.mp h.2
  obtain ⟨zs', hzs', -⟩ := hp.defenders _ zs hzs
  exact ⟨hp.statuses _ h.1, Option.isSome_of_eq_some hzs'⟩

/-- The dispute goes on from another one: attackers stay put forward, and those that are new are
answered. -/
structure Continues (T : Stage) (d d' : Dispute) : Prop where
  onStage : d'.OnStage T
  kept : d.opp ⊆ d'.opp
  answered : ∀ y ∈ d'.opp, y ∈ d.opp ∨ Answered T.proof y

theorem Continues.refl {T : Stage} {d : Dispute} (h : d.OnStage T) : Continues T d d :=
  ⟨h, List.Subset.refl _, fun _ hy ↦ .inl hy⟩

theorem Continues.trans {T U : Stage} {d d' d'' : Dispute} (h : Continues T d d')
    (hTU : T.Leads U) (h' : Continues U d' d'') : Continues U d d'' where
  onStage := h'.onStage
  kept := List.Subset.trans h.kept h'.kept
  answered y hy := by
    rcases h'.answered y hy with hy | hy
    · exact (h.answered y hy).imp_right fun ha ↦ ha.mono hTU.record
    · exact .inr hy

theorem Continues.mono {T U : Stage} {d d' : Dispute} (h : Continues T d d') (hTU : T.Leads U) :
    Continues U d d' :=
  h.trans hTU (.refl (h.onStage.mono hTU.cast))

/-- Once an attacker is answered, the dispute goes on from the one before it was put forward. -/
theorem Continues.of_answered {T : Stage} {d d₁ d' : Dispute} {y : Argument}
    (h : Continues T d₁ d') (hopp : d₁.opp = d.opp ++ [y]) (hy : Answered T.proof y) :
    Continues T d d' ∧ d'.oppContains y = true := by
  have hmem : y ∈ d'.opp := h.kept (by simp [hopp])
  refine ⟨⟨h.onStage, fun x hx ↦ h.kept (by simp [hopp, hx]), fun x hx ↦ ?_⟩,
    List.any_eq_true.mpr ⟨y, hmem, y.isSimilar_self⟩⟩
  rcases h.answered x hx with hx | hx
  · rw [hopp, List.mem_append, List.mem_singleton] at hx
    rcases hx with hx | rfl
    · exact .inl hx
    · exact .inr hy
  · exact .inr hx

theorem Continues.oppContains {T : Stage} {d d' : Dispute} (h : Continues T d d') {y : Argument}
    (hy : d.oppContains y = true) : d'.oppContains y = true := by
  obtain ⟨x, hx, hxy⟩ := List.any_eq_true.mp hy
  exact List.any_eq_true.mpr ⟨x, h.kept hx, hxy⟩

variable {arena : Arena} {S : Stage} {defend others : Dispute → Search (Option Dispute)}

def Explains (arena : Arena) (S : Stage) (m : Dispute → Search (Option Dispute))
    (P : Dispute → Prop) : Prop :=
  ∀ (T : Stage) (d : Dispute), S.Leads T → T.Sound arena → d.OnStage T →
    Upholds arena T (m d) fun U r ↦ ∀ d', r = some d' → Continues U d d' ∧ P d'

theorem Explains.mono {T : Stage} {m : Dispute → Search (Option Dispute)} {P : Dispute → Prop}
    (h : Explains arena S m P) (hST : S.Leads T) : Explains arena T m P :=
  fun U d hTU ↦ h U d (hST.trans hTU)

theorem upholds_answer {T : Stage} (hT : T.Sound arena) {y z : Argument} (hy : T.Has .opp y)
    (hz : T.Has .pro z) (hattacks : z.attacks arena.restricted y = true) {β : Type}
    {k : Search β} {Q : Stage → β → Prop}
    (hk : ∀ U, T.Leads U → U.Sound arena → Answered U.proof y → Upholds arena U k Q) :
    Upholds arena T (do
      Search.addDefender y z
      Search.setStatus y .defeated
      k) Q := by
  refine (Upholds.addDefender hT hy hz hattacks).bind fun U _ hTU hU ⟨_, hproof⟩ ↦ ?_
  have hdefenders : (U.proof.defenders.lookup y.id).isSome := by
    rw [hproof, Proof.lookup_addDefender, if_pos rfl]
    rfl
  refine (Upholds.setStatus hU (hy.mono hTU.cast) fun _ ↦ ⟨rfl, hdefenders⟩).bind
    fun V _ hUV hV ⟨_, hproof'⟩ ↦ ?_
  refine hk V (hTU.trans hUV) hV ⟨?_, ?_⟩
  · rw [hproof', Proof.lookup_setStatus, if_pos rfl]
    rfl
  · rw [hproof']
    exact hdefenders

theorem firstDefence_explains {P : Dispute → Prop} (hdefend : Explains arena S defend fun _ ↦ True)
    (hothers : Explains arena S others P) (hS : S.Sound arena) {d : Dispute} (hd : d.OnStage S)
    {y : Argument} (hy : S.Has .opp y) {es : List AttackerEntry}
    (hes : ∀ e ∈ es, S.Has .pro e.attacker ∧ e.attacker.attacks arena.restricted y = true) :
    Upholds arena S (firstDefence arena defend others d y es) fun T r ↦
      ∀ d', r = some d' → Continues T d d' ∧ d'.oppContains y = true ∧ P d' := by
  induction es generalizing S with
  | nil => exact .pure hS (by simp)
  | cons e es ih =>
    obtain ⟨⟨he, hattacks⟩, hes⟩ := List.forall_mem_cons.mp hes
    have hrest (T : Stage) (hST : S.Leads T) (hT : T.Sound arena) :=
      ih (hdefend.mono hST) (hothers.mono hST) hT (hd.mono hST.cast) (hy.mono hST.cast) fun x hx ↦
        ⟨(hes x hx).1.mono hST.cast, (hes x hx).2⟩
    simp only [firstDefence]
    split
    · exact hrest S (.refl S) hS
    refine (hdefend S _ (.refl S) hS (hd.exchange hy he)).bind fun T r hST hT hr ↦ ?_
    cases r with
    | none => exact hrest T hST hT
    | some defended =>
      obtain ⟨hdefended, -⟩ := hr defended rfl
      refine (hothers T _ hST hT hdefended.onStage).bind fun U r hTU hU hr' ↦ ?_
      have hSU := hST.trans hTU
      cases r with
      | none => exact hrest U hSU hU
      | some result =>
        obtain ⟨hresult, hP⟩ := hr' result rfl
        refine upholds_answer hU (hy.mono hSU.cast) (he.mono hSU.cast) hattacks ?_
        intro V hUV hV hanswered
        refine .pure hV ?_
        rintro _ ⟨⟩
        obtain ⟨hcontinues, hcontains⟩ :=
          ((hdefended.trans hTU hresult).mono hUV).of_answered rfl hanswered
        exact ⟨hcontinues, hcontains, hP⟩

theorem answerAll_explains (hdefend : Explains arena S defend fun _ ↦ True)
    {es : List AttackerEntry} (hes : ∀ e ∈ es, S.Has .opp e.attacker) :
    Explains arena S (answerAll arena defend es) fun d' ↦
      ∀ e ∈ es, d'.oppContains e.attacker = true := by
  induction es generalizing S with
  | nil =>
    intro T d _ hT hd
    exact .pure hT (by rintro _ ⟨⟩; exact ⟨.refl hd, by simp⟩)
  | cons e es ih =>
    intro T d hST hT hd
    obtain ⟨he, hes⟩ := List.forall_mem_cons.mp hes
    have he := he.mono hST.cast
    have hothers (U : Stage) (hTU : T.Leads U) :=
      (ih hdefend hes).mono (hST.trans hTU)
    simp only [answerAll, List.forall_mem_cons]
    split
    · rename_i hcontains
      refine (hothers T (.refl T) T d (.refl T) hT hd).imp fun U r _ _ hr d' hd' ↦ ?_
      obtain ⟨hcontinues, hrest⟩ := hr d' hd'
      exact ⟨hcontinues, hcontinues.oppContains hcontains, hrest⟩
    split
    · exact .pure hT (by simp)
    cases hfind : d.pro.find? (·.attacks arena.restricted e.attacker) with
    | some p =>
      have hp := hd.pro p (List.mem_of_find?_eq_some hfind)
      have hattacks : p.attacks arena.restricted e.attacker = true := by
        simpa using List.find?_some hfind
      refine upholds_answer hT he hp hattacks fun U hTU hU hanswered ↦ ?_
      have hconcede := (hd.mono hTU.cast).concede (he.mono hTU.cast)
      refine (hothers U hTU U _ (.refl U) hU hconcede).imp fun V r hUV _ hr d' hd' ↦ ?_
      obtain ⟨hcontinues, hrest⟩ := hr d' hd'
      obtain ⟨hcontinues, hcontains⟩ := hcontinues.of_answered rfl (hanswered.mono hUV.record)
      exact ⟨hcontinues, hcontains, hrest⟩
    | none =>
      refine (Upholds.attackersOf hT he).bind fun U replies hTU hU ⟨_, hreplies⟩ ↦ ?_
      exact firstDefence_explains (hdefend.mono (hST.trans hTU)) (hothers U hTU) hU
        (hd.mono hTU.cast) (he.mono hTU.cast) hreplies |>.imp fun V r _ _ hr d' hd' ↦
          ⟨(hr d' hd').1, (hr d' hd').2⟩

/-- After the defence of a dispute all attackers of its last argument have been put forward, or
others that are similar. -/
def Faced (T : Stage) (d d' : Dispute) : Prop :=
  ∀ a, d.pro.getLast? = some a → ∃ found, T.proof.attackers.lookup a.id = some found ∧
    ∀ e ∈ found.successful, d'.oppContains e.attacker = true

theorem defend_explains (arena : Arena) (moves : ℕ) {S : Stage} (hS : S.Sound arena) {d : Dispute}
    (hd : d.OnStage S) : Upholds arena S (Preferred.defend arena moves d) fun T r ↦
      ∀ d', r = some d' → Continues T d d' ∧ Faced T d d' := by
  induction moves generalizing S d with
  | zero => exact fun r τ hrun ↦ by cases hrun
  | succ moves ih =>
    have hdefend (S : Stage) : Explains arena S (Preferred.defend arena moves) fun _ ↦ True :=
      fun T d _ hT hd ↦ (ih hT hd).imp fun U r _ _ hr d' hd' ↦ ⟨(hr d' hd').1, trivial⟩
    rw [Preferred.defend]
    cases hlast : d.pro.getLast? with
    | none => exact .pure hS (by simp)
    | some a =>
      have ha := hd.pro a (List.mem_of_getLast? hlast)
      refine (Upholds.attackersOf hS ha).bind ?_
      rintro T es hST hT ⟨⟨found, hlookup, hsuccessful⟩, hes⟩
      refine .settled (ha.mono hST.cast) ?_ fun T U r hr hTU d' hd' ↦ ?_
      · refine (answerAll_explains (hdefend T) (fun e he ↦ (hes e he).1) T d (.refl T) hT
          (hd.mono hST.cast)).imp fun U r hTU _ hr d' hd' ↦ ?_
        obtain ⟨hcontinues, hcontains⟩ := hr d' hd'
        refine ⟨hcontinues, fun b hb ↦ ?_⟩
        rw [hlast, Option.some.injEq] at hb
        subst hb
        exact ⟨found, hTU.record.attackers _ _ hlookup, hsuccessful ▸ hcontains⟩
      · obtain ⟨hcontinues, hfaced⟩ := hr d' hd'
        refine ⟨hcontinues.mono hTU, fun b hb ↦ ?_⟩
        obtain ⟨found, hlookup, hcontains⟩ := hfaced b hb
        exact ⟨found, hTU.record.attackers _ _ hlookup, hcontains⟩

end Preferred

end Argumentation
