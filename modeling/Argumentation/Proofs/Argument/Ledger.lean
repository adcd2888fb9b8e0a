import Argumentation.Proofs.Argument.Form

namespace Argumentation

structure Ledger where
  argument : ArgumentId → Argument
  next : ArgumentId

namespace Ledger

instance : LE Ledger :=
  ⟨fun L M ↦ L.next ≤ M.next ∧ ∀ i < L.next, M.argument i = L.argument i⟩

variable {K L M : Ledger}

theorem le_refl (L : Ledger) : L ≤ L :=
  ⟨Nat.le_refl _, fun _ _ ↦ rfl⟩

theorem le_trans (h : K ≤ L) (h' : L ≤ M) : K ≤ M :=
  ⟨Nat.le_trans h.1 h'.1, fun i hi ↦ (h'.2 i (Nat.lt_of_lt_of_le hi h.1)).trans (h.2 i hi)⟩

def enter (L : Ledger) (a : Argument) : Ledger :=
  ⟨fun i ↦ if i = L.next then a else L.argument i, L.next + 1⟩

theorem le_enter (L : Ledger) (a : Argument) : L ≤ L.enter a := by
  refine ⟨Nat.le_succ _, fun i hi ↦ ?_⟩
  simp only [enter, if_neg (Nat.ne_of_lt hi)]

end Ledger

inductive Argument.NumberedBy (L : Ledger) : Argument → Prop
  | intro {a : Argument} : a.id < L.next → L.argument a.id = a →
      (∀ b ∈ a.subs, NumberedBy L b) → NumberedBy L a

theorem Argument.NumberedBy.mono {L M : Ledger} {a : Argument} (h : a.NumberedBy L) (hLM : L ≤ M) :
    a.NumberedBy M := by
  induction h with
  | intro hid hentry _ ih =>
    exact .intro (Nat.lt_of_lt_of_le hid hLM.1) ((hLM.2 _ hid).trans hentry) ih

theorem Argument.NumberedBy.subs {L : Ledger} {a : Argument} (h : a.NumberedBy L) :
    ∀ b ∈ a.subs, b.NumberedBy L := by
  obtain ⟨-, -, hsubs⟩ := h
  exact hsubs

namespace Flow

variable {α β γ δ : Type}

/-- Whatever free numbers a flow is given, its elements are a given list as far as `view` goes, and
each is good under the ledger of its time. -/
def Shows (good : Ledger → α → Prop) (view : α → β) : Flow α → Ledger → List β → Prop
  | .done, _, l => l = []
  | .yield a rest, L, l => ∃ l', l = view a :: l' ∧ good L a ∧ Shows good view (rest ()) L l'
  | .takeVariables _ next, L, l => ∀ base, Shows good view (next base) L l
  | .takeArgument next, L, l =>
    ∀ M, L ≤ M → ∃ b, Shows good view (next M.next) (M.enter b) l

def Stable (good : Ledger → α → Prop) : Prop :=
  ∀ L M a, L ≤ M → good L a → good M a

variable {good : Ledger → α → Prop} {view : α → β}

theorem Shows.mono (hs : Stable good) {f : Flow α} {L M : Ledger} {l : List β}
    (h : f.Shows good view L l) (hLM : L ≤ M) : f.Shows good view M l := by
  induction f generalizing L M l with
  | done => exact h
  | yield a rest ih =>
    obtain ⟨l', rfl, ha, hrest⟩ := h
    exact ⟨l', rfl, hs L M a hLM ha, ih () hrest hLM⟩
  | takeVariables n next ih => exact fun base ↦ ih base (h base) hLM
  | takeArgument next ih => exact fun M' hM' ↦ h M' (Ledger.le_trans hLM hM')

theorem Shows.pure {L : Ledger} {a : α} (ha : good L a) :
    (Flow.pure a).Shows good view L [view a] :=
  ⟨[], rfl, ha, rfl⟩

theorem Shows.append {f : Flow α} {k : Unit → Flow α} {L : Ledger}
    {l l' : List β} (h : f.Shows good view L l)
    (hk : ∀ M, L ≤ M → (k ()).Shows good view M l') :
    (f.append k).Shows good view L (l ++ l') := by
  induction f generalizing L l with
  | done =>
    cases h
    exact hk L (Ledger.le_refl L)
  | yield a rest ih =>
    obtain ⟨m, rfl, ha, hrest⟩ := h
    exact ⟨m ++ l', rfl, ha, ih () hrest hk⟩
  | takeVariables n next ih => exact fun base ↦ ih base (h base) hk
  | takeArgument next ih =>
    intro M hM
    obtain ⟨b, hb⟩ := h M hM
    refine ⟨b, ih M.next hb fun M' hM' ↦ hk M' ?_⟩
    exact Ledger.le_trans hM (Ledger.le_trans (M.le_enter b) hM')

theorem Shows.concat {bs : List γ} {f : γ → Flow α} {h : γ → List β}
    {L : Ledger} (hf : ∀ b ∈ bs, ∀ M, L ≤ M → (f b).Shows good view M (h b)) :
    (Flow.concat bs f).Shows good view L (bs.flatMap h) := by
  induction bs generalizing L with
  | nil => rfl
  | cons b bs ih =>
    rw [Flow.concat, List.flatMap_cons]
    refine (hf b (.head _) L (Ledger.le_refl L)).append fun M hM ↦ ih fun c hc M' hM' ↦ ?_
    exact hf c (.tail _ hc) M' (Ledger.le_trans hM hM')

/-- The elements of a bound flow are those of its parts, although the two take their numbers in
turns. -/
theorem Shows.bind {good' : Ledger → γ → Prop} {view' : γ → δ} (hs : Stable good) {f : Flow α}
    {k : α → Flow γ} {h : β → List δ} {L : Ledger} {l : List β}
    (hf : f.Shows good view L l)
    (hk : ∀ M a, L ≤ M → good M a → view a ∈ l → (k a).Shows good' view' M (h (view a))) :
    (f.bind k).Shows good' view' L (l.flatMap h) := by
  induction f generalizing L l with
  | done =>
    cases hf
    rfl
  | yield a rest ih =>
    obtain ⟨m, rfl, ha, hrest⟩ := hf
    rw [Flow.bind, List.flatMap_cons]
    -- The rest of `f` is drawn after `k a`, from the numbers that `k a` has left.
    refine (hk L a (Ledger.le_refl L) ha (.head _)).append fun M hM ↦ ?_
    refine ih () (hrest.mono hs hM) fun M' b hM' hb hmem ↦ ?_
    exact hk M' b (Ledger.le_trans hM hM') hb (.tail _ hmem)
  | takeVariables n next ih => exact fun base ↦ ih base (hf base) hk
  | takeArgument next ih =>
    intro M hM
    obtain ⟨c, hc⟩ := hf M hM
    refine ⟨c, ih M.next hc fun M' b hM' ↦ hk M' b ?_⟩
    exact Ledger.le_trans hM (Ledger.le_trans (M.le_enter c) hM')

theorem Shows.toList {f : Flow α} {L : Ledger} {l : List β} {s : Supply} (hs : Stable good)
    (h : f.Shows good view L l) (hnext : L.next = s.freeArgument) :
    ∃ M, L ≤ M ∧ M.next = (f.toList s).2.freeArgument ∧ (f.toList s).1.map view = l ∧
      ∀ a ∈ (f.toList s).1, good M a := by
  induction f generalizing L l s with
  | done =>
    cases h
    exact ⟨L, Ledger.le_refl L, hnext, rfl, by simp [Flow.toList]⟩
  | yield a rest ih =>
    obtain ⟨l', rfl, ha, hrest⟩ := h
    obtain ⟨M, hLM, hM, hview, hgood⟩ := ih () hrest hnext
    refine ⟨M, hLM, hM, congrArg (view a :: ·) hview, ?_⟩
    intro b hb
    rcases List.mem_cons.mp hb with rfl | hb
    · exact hs L M b hLM ha
    · exact hgood b hb
  | takeVariables n next ih => exact ih _ (h _) hnext
  | takeArgument next ih =>
    obtain ⟨b, hb⟩ := h L (Ledger.le_refl L)
    rw [hnext] at hb
    obtain ⟨M, hLM, hM⟩ := ih _ hb (s := { s with freeArgument := s.freeArgument + 1 })
      (congrArg (· + 1) hnext)
    exact ⟨M, Ledger.le_trans (L.le_enter b) hLM, hM⟩

theorem Shows.next {f : Flow α} {L : Ledger} {l : List β} {s : Supply}
    (h : f.Shows good view L l) (hnext : L.next = s.freeArgument) :
    ∃ M, L ≤ M ∧ M.next = (f.next s).2.freeArgument ∧
      ∀ a rest, (f.next s).1 = some (a, rest) →
        ∃ l', l = view a :: l' ∧ good M a ∧ rest.Shows good view M l' := by
  induction f generalizing L l s with
  | done => exact ⟨L, Ledger.le_refl L, hnext, by simp [Flow.next]⟩
  | yield a rest ih =>
    refine ⟨L, Ledger.le_refl L, hnext, ?_⟩
    rintro b rest' hb
    cases hb
    exact h
  | takeVariables n next ih => exact ih _ (h _) hnext
  | takeArgument next ih =>
    obtain ⟨b, hb⟩ := h L (Ledger.le_refl L)
    rw [hnext] at hb
    obtain ⟨M, hLM, hM⟩ := ih _ hb (s := { s with freeArgument := s.freeArgument + 1 })
      (congrArg (· + 1) hnext)
    exact ⟨M, Ledger.le_trans (L.le_enter b) hLM, hM⟩

end Flow

end Argumentation
