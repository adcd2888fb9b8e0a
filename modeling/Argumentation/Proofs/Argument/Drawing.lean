import Argumentation.Argument.Flow
import Mathlib.Data.List.Basic
import Mathlib.Data.List.Forall2

namespace Argumentation.Flow

variable {α β γ δ : Type}

def All (P : α → Prop) : Flow α → Prop
  | .done => True
  | .yield a rest => P a ∧ All P (rest ())
  | .takeVariables _ next => ∀ base, All P (next base)
  | .takeArgument next => ∀ id, All P (next id)

section All

variable {P : α → Prop} {Q : β → Prop}

theorem All.pure {a : α} (h : P a) : (Flow.pure a).All P :=
  ⟨h, trivial⟩

theorem All.imp {P' : α → Prop} {f : Flow α} (hf : f.All P) (h : ∀ a, P a → P' a) : f.All P' := by
  induction f with
  | done => trivial
  | yield a rest ih => exact ⟨h a hf.1, ih () hf.2⟩
  | takeVariables n next ih => exact fun base ↦ ih base (hf base)
  | takeArgument next ih => exact fun id ↦ ih id (hf id)

theorem All.append {f : Flow α} {k : Unit → Flow α} (hf : f.All P) (hk : (k ()).All P) :
    (f.append k).All P := by
  induction f with
  | done => exact hk
  | yield a rest ih => exact ⟨hf.1, ih () hf.2⟩
  | takeVariables n next ih => exact fun base ↦ ih base (hf base)
  | takeArgument next ih => exact fun id ↦ ih id (hf id)

theorem All.bind {f : Flow α} {k : α → Flow β} (hf : f.All P) (hk : ∀ a, P a → (k a).All Q) :
    (f.bind k).All Q := by
  induction f with
  | done => trivial
  | yield a rest ih => exact (hk a hf.1).append (ih () hf.2)
  | takeVariables n next ih => exact fun base ↦ ih base (hf base)
  | takeArgument next ih => exact fun id ↦ ih id (hf id)

theorem All.concat {bs : List γ} {f : γ → Flow α} (h : ∀ b ∈ bs, (f b).All P) :
    (Flow.concat bs f).All P := by
  induction bs with
  | nil => trivial
  | cons b bs ih => exact (h b (.head _)).append (ih fun c hc ↦ h c (.tail _ hc))

theorem All.ifEmpty {f : Flow α} {k : Flow β} (hk : k.All Q) : (f.ifEmpty k).All Q := by
  induction f with
  | done => exact hk
  | yield a rest => trivial
  | takeVariables n next ih => exact fun base ↦ ih base
  | takeArgument next ih => exact fun id ↦ ih id

theorem All.toList {f : Flow α} (h : f.All P) (s : Supply) : ∀ a ∈ (f.toList s).1, P a := by
  induction f generalizing s with
  | done => simp [Flow.toList]
  | yield a rest ih => exact List.forall_mem_cons.mpr ⟨h.1, ih () h.2 s⟩
  | takeVariables n next ih => exact ih _ (h _) _
  | takeArgument next ih => exact ih _ (h _) _

end All

def Has (P : α → Prop) : Flow α → Prop
  | .done => False
  | .yield a rest => P a ∨ Has P (rest ())
  | .takeVariables _ next => ∀ base, Has P (next base)
  | .takeArgument next => ∀ id, Has P (next id)

section Has

variable {P : α → Prop}

theorem Has.pure {a : α} (h : P a) : (Flow.pure a).Has P :=
  .inl h

theorem Has.append_left {f : Flow α} (hf : f.Has P) (k : Unit → Flow α) : (f.append k).Has P := by
  induction f with
  | done => cases hf
  | yield a rest ih => exact hf.imp_right (ih ())
  | takeVariables n next ih => exact fun base ↦ ih base (hf base)
  | takeArgument next ih => exact fun id ↦ ih id (hf id)

theorem Has.append_right (f : Flow α) {k : Unit → Flow α} (hk : (k ()).Has P) :
    (f.append k).Has P := by
  induction f with
  | done => exact hk
  | yield a rest ih => exact .inr (ih ())
  | takeVariables n next ih => exact ih
  | takeArgument next ih => exact ih

theorem Has.concat {bs : List γ} {f : γ → Flow α} {b : γ} (hb : b ∈ bs) (h : (f b).Has P) :
    (Flow.concat bs f).Has P := by
  induction bs with
  | nil => cases hb
  | cons c bs ih =>
    rcases List.mem_cons.mp hb with rfl | hb
    · exact h.append_left _
    · exact .append_right _ (ih hb)

theorem Has.toList {f : Flow α} (h : f.Has P) (s : Supply) : ∃ a ∈ (f.toList s).1, P a := by
  induction f generalizing s with
  | done => cases h
  | yield a rest ih =>
    rcases h with ha | hrest
    · exact ⟨a, .head _, ha⟩
    · obtain ⟨b, hb, hPb⟩ := ih () hrest s
      exact ⟨b, .tail _ hb, hPb⟩
  | takeVariables n next ih => exact ih _ (h _) _
  | takeArgument next ih => exact ih _ (h _) _

end Has

theorem append_done (f : Flow α) : (f.append fun _ ↦ .done) = f := by
  induction f with
  | done => rfl
  | yield a rest ih => exact congrArg _ (funext fun _ ↦ ih ())
  | takeVariables n next ih => exact congrArg _ (funext ih)
  | takeArgument next ih => exact congrArg _ (funext ih)

theorem append_assoc (f : Flow α) (k m : Unit → Flow α) :
    (f.append k).append m = f.append fun _ ↦ (k ()).append m := by
  induction f with
  | done => rfl
  | yield a rest ih => exact congrArg _ (funext fun _ ↦ ih ())
  | takeVariables n next ih => exact congrArg _ (funext ih)
  | takeArgument next ih => exact congrArg _ (funext ih)

theorem append_bind (f : Flow α) (k : Unit → Flow α) (g : α → Flow β) :
    (f.append k).bind g = (f.bind g).append fun _ ↦ (k ()).bind g := by
  induction f with
  | done => rfl
  | yield a rest ih =>
    simp only [append, bind, append_assoc]
    exact congrArg _ (funext fun _ ↦ ih ())
  | takeVariables n next ih => exact congrArg _ (funext ih)
  | takeArgument next ih => exact congrArg _ (funext ih)

theorem pure_bind (a : α) (g : α → Flow β) : (Flow.pure a).bind g = g a :=
  append_done (g a)

theorem bind_assoc (f : Flow α) (g : α → Flow β) (h : β → Flow γ) :
    (f.bind g).bind h = f.bind fun a ↦ (g a).bind h := by
  induction f with
  | done => rfl
  | yield a rest ih =>
    simp only [bind, append_bind]
    exact congrArg _ (funext fun _ ↦ ih ())
  | takeVariables n next ih => exact congrArg _ (funext ih)
  | takeArgument next ih => exact congrArg _ (funext ih)

/-- Whatever numbers a flow takes, all of them from a bound on, its elements are related one by one
to those of a list. The relation knows a bound that the numbers of variables so far are below. -/
def Follows (R : ℕ → α → β → Prop) : ℕ → Flow α → List β → Prop
  | _, .done, l => l = []
  | n, .yield a rest, l => ∃ b l', l = b :: l' ∧ R n a b ∧ Follows R n (rest ()) l'
  | n, .takeVariables k next, l => ∀ m, n ≤ m → Follows R (m + k) (next m) l
  | n, .takeArgument next, l => ∀ id, Follows R n (next id) l

def Lasting (R : ℕ → α → β → Prop) : Prop :=
  ∀ n m a b, n ≤ m → R n a b → R m a b

section Follows

variable {R : ℕ → α → β → Prop} {n : ℕ} {l : List β}

theorem Follows.mono (hR : Lasting R) {f : Flow α} (h : f.Follows R n l) {m : ℕ} (hm : n ≤ m) :
    f.Follows R m l := by
  induction f generalizing n m l with
  | done => exact h
  | yield a rest ih =>
    obtain ⟨b, l', rfl, hab, hrest⟩ := h
    exact ⟨b, l', rfl, hR n m a b hm hab, ih () hrest hm⟩
  | takeVariables k next ih => exact fun m' hm' ↦ h m' (Nat.le_trans hm hm')
  | takeArgument next ih => exact fun id ↦ ih id (h id) hm

theorem Follows.imp {R' : ℕ → α → β → Prop} (hR : ∀ m a b, n ≤ m → R m a b → R' m a b)
    {f : Flow α} (h : f.Follows R n l) : f.Follows R' n l := by
  induction f generalizing n l with
  | done => exact h
  | yield a rest ih =>
    obtain ⟨b, l', rfl, hab, hrest⟩ := h
    exact ⟨b, l', rfl, hR n a b (Nat.le_refl n) hab, ih () hR hrest⟩
  | takeVariables k next ih =>
    refine fun m hm ↦ ih m (fun m' a b hm' ↦ hR m' a b ?_) (h m hm)
    exact Nat.le_trans hm (Nat.le_trans (Nat.le_add_right m k) hm')
  | takeArgument next ih => exact fun id ↦ ih id hR (h id)

theorem Follows.map {R' : ℕ → α → γ → Prop} {g : β → γ} (hR : ∀ m a b, R m a b → R' m a (g b))
    {f : Flow α} (h : f.Follows R n l) : f.Follows R' n (l.map g) := by
  induction f generalizing n l with
  | done =>
    cases h
    rfl
  | yield a rest ih =>
    obtain ⟨b, l', rfl, hab, hrest⟩ := h
    exact ⟨g b, l'.map g, rfl, hR n a b hab, ih () hrest⟩
  | takeVariables k next ih => exact fun m hm ↦ ih m (h m hm)
  | takeArgument next ih => exact fun id ↦ ih id (h id)

theorem Follows.pure {a : α} {b : β} (h : R n a b) : (Flow.pure a).Follows R n [b] :=
  ⟨b, [], rfl, h, rfl⟩

theorem Follows.append {f : Flow α} {k : Unit → Flow α} {l' : List β} (hf : f.Follows R n l)
    (hk : ∀ m, n ≤ m → (k ()).Follows R m l') : (f.append k).Follows R n (l ++ l') := by
  induction f generalizing n l with
  | done =>
    cases hf
    exact hk n (Nat.le_refl n)
  | yield a rest ih =>
    obtain ⟨b, l₁, rfl, hab, hrest⟩ := hf
    exact ⟨b, l₁ ++ l', rfl, hab, ih () hrest hk⟩
  | takeVariables k' next ih =>
    refine fun m hm ↦ ih m (hf m hm) fun m' hm' ↦ hk m' ?_
    exact Nat.le_trans hm (Nat.le_trans (Nat.le_add_right m k') hm')
  | takeArgument next ih => exact fun id ↦ ih id (hf id) hk

theorem Follows.concat {cs : List γ} {f : γ → Flow α} {g : γ → List β}
    (h : ∀ c ∈ cs, ∀ m, n ≤ m → (f c).Follows R m (g c)) :
    (Flow.concat cs f).Follows R n (cs.flatMap g) := by
  induction cs generalizing n with
  | nil => rfl
  | cons c cs ih =>
    refine (h c (.head _) n (Nat.le_refl n)).append fun m hm ↦ ih fun c' hc' m' hm' ↦ ?_
    exact h c' (.tail _ hc') m' (Nat.le_trans hm hm')

/-- What is built from the elements of a flow follows what is built from those of the list, although
the two flows take their numbers in turns. -/
theorem Follows.bind {R' : ℕ → γ → δ → Prop} (hR : Lasting R) {f : Flow α} {k : α → Flow γ}
    {g : β → List δ} (hf : f.Follows R n l)
    (hk : ∀ m a b, n ≤ m → R m a b → b ∈ l → (k a).Follows R' m (g b)) :
    (f.bind k).Follows R' n (l.flatMap g) := by
  induction f generalizing n l with
  | done =>
    cases hf
    rfl
  | yield a rest ih =>
    obtain ⟨b, l, rfl, hab, hrest⟩ := hf
    refine (hk n a b (Nat.le_refl n) hab (.head _)).append fun m hm ↦ ?_
    refine ih () (hrest.mono hR hm) fun m' a' b' hm' hab' hb' ↦ ?_
    exact hk m' a' b' (Nat.le_trans hm hm') hab' (.tail _ hb')
  | takeVariables k' next ih =>
    refine fun m hm ↦ ih m (hf m hm) fun m' a b hm' ↦ hk m' a b ?_
    exact Nat.le_trans hm (Nat.le_trans (Nat.le_add_right m k') hm')
  | takeArgument next ih => exact fun id ↦ ih id (hf id) hk

theorem Follows.ifEmpty {R' : ℕ → γ → δ → Prop} {f : Flow α} {k : Flow γ} {l' : List δ}
    (hf : f.Follows R n l) (hk : ∀ m, n ≤ m → k.Follows R' m l') :
    (f.ifEmpty k).Follows R' n (if l.isEmpty then l' else []) := by
  induction f generalizing n with
  | done =>
    cases hf
    exact hk n (Nat.le_refl n)
  | yield a rest =>
    obtain ⟨b, l, rfl, -⟩ := hf
    rfl
  | takeVariables k' next ih =>
    refine fun m hm ↦ ih m (hf m hm) fun m' hm' ↦ hk m' ?_
    exact Nat.le_trans hm (Nat.le_trans (Nat.le_add_right m k') hm')
  | takeArgument next ih => exact fun id ↦ ih id (hf id) hk

theorem Follows.toList {f : Flow α} (h : f.Follows R n l) {s : Supply} (hs : n ≤ s.freeVariable) :
    List.Forall₂ (fun a b ↦ ∃ m, R m a b) (f.toList s).1 l := by
  induction f generalizing n l s with
  | done =>
    cases h
    exact .nil
  | yield a rest ih =>
    obtain ⟨b, l, rfl, hab, hrest⟩ := h
    exact .cons ⟨n, hab⟩ (ih () hrest hs)
  | takeVariables k next ih => exact ih _ (h _ hs) (Nat.le_refl _)
  | takeArgument next ih => exact ih _ (h _) hs

end Follows

end Argumentation.Flow
