import Argumentation.Argument.Attack
import Argumentation.Proofs.Argument.Soundness
import Argumentation.Proofs.Dialogue.Coherence
import Mathlib.Data.List.Nodup

namespace Argumentation

namespace Argument

section Levels

variable {α : Type}

theorem joinLevels_nil (l : List (List α)) : joinLevels l [] = l := by
  cases l <;> rfl

theorem joinLevels_assoc (l m n : List (List α)) :
    joinLevels (joinLevels l m) n = joinLevels l (joinLevels m n) := by
  induction l generalizing m n with
  | nil => rfl
  | cons x l ih =>
    cases m with
    | nil => rfl
    | cons y m =>
      cases n with
      | nil => rfl
      | cons z n => rw [joinLevels, joinLevels, joinLevels, joinLevels, ih, List.append_assoc]

theorem flatten_joinLevels_cons (x : List α) (l m : List (List α)) :
    (joinLevels (x :: l) m).flatten = x ++ (joinLevels m l).flatten := by
  cases m with
  | nil => rfl
  | cons y m =>
    rw [joinLevels, List.flatten_cons, flatten_joinLevels_cons y m l, List.append_assoc]
termination_by l.length + m.length

theorem getD_joinLevels (l m : List (List α)) (k : ℕ) :
    (joinLevels l m)[k]?.getD [] = l[k]?.getD [] ++ m[k]?.getD [] := by
  induction l generalizing m k with
  | nil => rfl
  | cons x l ih =>
    cases m with
    | nil => simp [joinLevels_nil]
    | cons y m =>
      cases k with
      | zero => rfl
      | succ k => simpa only [joinLevels, List.getElem?_cons_succ] using ih m k

theorem flatten_eq_flatMap_getD (l : List (List α)) :
    l.flatten = (List.range l.length).flatMap fun k ↦ l[k]?.getD [] := by
  have hlevels : (List.range l.length).map (fun k ↦ l[k]?.getD []) = l :=
    List.ext_getElem (by simp) fun k _ hk ↦ by simp [hk]
  rw [List.flatMap, hlevels]

end Levels

variable {a b n : Argument} {p q : List ℕ} {k : ℕ}

theorem levels_eq (a : Argument) : a.levels = [a] :: levelsAll a.subs := by
  cases a
  rfl

theorem levelsAll_append (as bs : List Argument) :
    levelsAll (as ++ bs) = joinLevels (levelsAll as) (levelsAll bs) := by
  induction as with
  | nil => rfl
  | cons a as ih => rw [List.cons_append, levelsAll, ih, ← joinLevels_assoc, levelsAll]

theorem getD_levelsAll (as : List Argument) (k : ℕ) :
    (levelsAll as)[k]?.getD [] = as.flatMap fun a ↦ a.levels[k]?.getD [] := by
  induction as with
  | nil => rfl
  | cons a as ih => rw [levelsAll, getD_joinLevels, ih, List.flatMap_cons]

theorem flatten_levelsAll_cons (a : Argument) (queue : List Argument) :
    (levelsAll (a :: queue)).flatten = a :: (levelsAll (queue ++ a.subs)).flatten := by
  rw [levelsAll, levels_eq, flatten_joinLevels_cons, ← levelsAll_append, List.singleton_append]

/-- The nodes as they leave a queue which the sub-arguments of each of them join at its end. -/
def breadthFirst : List Argument → List Argument
  | [] => []
  | a :: queue => a :: breadthFirst (queue ++ a.subs)
termination_by queue => (levelsAll queue).flatten.length
decreasing_by
  rw [flatten_levelsAll_cons]
  exact Nat.lt_succ_self _

theorem breadthFirst_eq (queue : List Argument) :
    breadthFirst queue = (levelsAll queue).flatten := by
  fun_induction breadthFirst queue with
  | case1 => rfl
  | case2 a queue ih => rw [ih, flatten_levelsAll_cons]

theorem subtree_eq_breadthFirst (a : Argument) : a.subtree = breadthFirst [a] := by
  rw [breadthFirst_eq, levelsAll, levelsAll, joinLevels_nil, subtree]

/-- The node that is reached by going down to the sub-arguments with these numbers. -/
def nodeAt? : Argument → List ℕ → Option Argument
  | a, [] => some a
  | a, i :: p => a.subs[i]?.bind (nodeAt? · p)

def addressesAt : Argument → ℕ → List (List ℕ)
  | _, 0 => [[]]
  | a, k + 1 => a.subs.zipIdx.flatMap fun (b, i) ↦ (b.addressesAt k).map (i :: ·)

def addresses (a : Argument) : List (List ℕ) :=
  (List.range a.levels.length).flatMap a.addressesAt

theorem nodeAt?_append (a : Argument) (p q : List ℕ) :
    a.nodeAt? (p ++ q) = (a.nodeAt? p).bind (·.nodeAt? q) := by
  induction p generalizing a with
  | nil => rfl
  | cons i p ih =>
    rw [List.cons_append, nodeAt?, nodeAt?]
    cases a.subs[i]? with
    | none => rfl
    | some b => exact ih b

theorem map_nodeAt?_addressesAt (a : Argument) (k : ℕ) :
    (a.addressesAt k).map a.nodeAt? = (a.levels[k]?.getD []).map some := by
  induction k generalizing a with
  | zero =>
    rw [levels_eq]
    rfl
  | succ k ih =>
    rw [levels_eq, List.getElem?_cons_succ, getD_levelsAll, List.map_flatMap]
    conv => rhs; rw [← List.zipIdx_map_fst 0 a.subs]
    rw [List.flatMap_map, addressesAt, List.map_flatMap]
    refine List.flatMap_congr fun ⟨b, i⟩ hb ↦ ?_
    have hsub : a.subs[i]? = some b := List.mem_zipIdx_iff_getElem?.mp hb
    rw [← ih b, List.map_map]
    refine List.map_congr_left fun p _ ↦ ?_
    rw [Function.comp_apply, nodeAt?, hsub, Option.bind_some]

theorem mem_addressesAt :
    p ∈ a.addressesAt k ↔ p.length = k ∧ (a.nodeAt? p).isSome = true := by
  induction k generalizing a p with
  | zero => cases p <;> simp [addressesAt, nodeAt?]
  | succ k ih =>
    simp only [addressesAt, List.mem_flatMap, List.mem_map, Prod.exists, ih,
      List.mem_zipIdx_iff_getElem?]
    constructor
    · rintro ⟨b, i, hb, p, ⟨hlength, hsome⟩, rfl⟩
      exact ⟨congrArg Nat.succ hlength, by rwa [nodeAt?, hb, Option.bind_some]⟩
    · rintro ⟨hlength, hsome⟩
      cases p with
      | nil => cases hlength
      | cons i p =>
        rw [nodeAt?] at hsome
        obtain ⟨b, hb⟩ := Option.isSome_iff_exists.mp (Option.isSome_of_isSome_bind hsome)
        rw [hb, Option.bind_some] at hsome
        exact ⟨b, i, hb, p, ⟨Nat.succ.inj hlength, hsome⟩, rfl⟩

theorem nodup_addressesAt (a : Argument) (k : ℕ) : (a.addressesAt k).Nodup := by
  induction k generalizing a with
  | zero => exact List.nodup_singleton _
  | succ k ih =>
    refine List.nodup_flatMap.mpr ⟨fun x _ ↦ (ih x.1).map List.cons_injective, ?_⟩
    have hnumbers : (a.subs.zipIdx.map Prod.snd).Nodup := by
      rw [List.zipIdx_map_snd]
      exact List.nodup_range'
    refine (List.pairwise_map.mp hnumbers).imp fun {x y} hne p hx hy ↦ ?_
    obtain ⟨q, -, rfl⟩ := List.mem_map.mp hx
    obtain ⟨r, -, heq⟩ := List.mem_map.mp hy
    exact hne (List.cons.inj heq).1.symm

theorem map_nodeAt?_addresses (a : Argument) : a.addresses.map a.nodeAt? = a.subtree.map some := by
  rw [addresses, List.map_flatMap, subtree, flatten_eq_flatMap_getD, List.map_flatMap]
  exact List.flatMap_congr fun k _ ↦ map_nodeAt?_addressesAt a k

theorem mem_addresses : p ∈ a.addresses ↔ (a.nodeAt? p).isSome = true := by
  simp only [addresses, List.mem_flatMap, List.mem_range, mem_addressesAt]
  refine ⟨fun ⟨k, _, _, hsome⟩ ↦ hsome, fun hsome ↦ ⟨p.length, ?_, rfl, hsome⟩⟩
  -- The level of the address has a node, so it is one of the levels.
  by_contra hlength
  have hmem : a.nodeAt? p ∈ (a.addressesAt p.length).map a.nodeAt? :=
    List.mem_map_of_mem (mem_addressesAt.mpr ⟨rfl, hsome⟩)
  rw [map_nodeAt?_addressesAt, List.getElem?_eq_none (not_lt.mp hlength)] at hmem
  cases hmem

theorem nodup_addresses (a : Argument) : a.addresses.Nodup := by
  refine List.nodup_flatMap.mpr ⟨fun k _ ↦ nodup_addressesAt a k, ?_⟩
  refine List.nodup_range.imp fun hne p hp hp' ↦ hne ?_
  rw [← (mem_addressesAt.mp hp).1, (mem_addressesAt.mp hp').1]

theorem pairwise_addresses (a : Argument) :
    a.addresses.Pairwise fun p q ↦ p.length ≤ q.length := by
  refine List.pairwise_flatMap.mpr ⟨fun k _ ↦ ?_, ?_⟩
  · refine List.pairwise_of_forall_mem_list fun p hp q hq ↦ ?_
    rw [(mem_addressesAt.mp hp).1, (mem_addressesAt.mp hq).1]
  · refine List.pairwise_lt_range.imp fun hlt p hp q hq ↦ ?_
    rw [(mem_addressesAt.mp hp).1, (mem_addressesAt.mp hq).1]
    exact hlt.le

theorem idxOf_lt_idxOf (hp : p ∈ a.addresses) (hq : q ∈ a.addresses) (h : p.length < q.length) :
    a.addresses.idxOf p < a.addresses.idxOf q := by
  by_contra hle
  have hne : a.addresses.idxOf q ≠ a.addresses.idxOf p := by
    intro heq
    rw [List.idxOf_inj hq] at heq
    exact absurd h (heq ▸ lt_irrefl _)
  have hordered := List.pairwise_iff_getElem.mp a.pairwise_addresses _ _
    (List.idxOf_lt_length_iff.mpr hq) (List.idxOf_lt_length_iff.mpr hp)
    (lt_of_le_of_ne (not_lt.mp hle) hne)
  rw [List.getElem_idxOf, List.getElem_idxOf] at hordered
  omega

theorem deepAttack?_eq_findSome? (restricted : Bool) (b a : Argument) :
    b.deepAttack? restricted a = a.addresses.findSome? fun p ↦
      (a.nodeAt? p).bind fun n ↦ (b.attackOn? restricted n).map (⟨·, n⟩) := by
  have hsubtree (f : Argument → Option Attack) :
      a.subtree.findSome? f = (a.subtree.map some).findSome? (·.bind f) := by
    rw [List.findSome?_map]
    rfl
  rw [deepAttack?, hsubtree, ← map_nodeAt?_addresses, List.findSome?_map]
  rfl

/-- The nodes of an argument are listed as a queue has them: one for each address, those that are
nested less deeply first, and every node after the one above it. An attack is found if any node is
attacked; its target is an attacked node such that none is nested less deeply, and its kind is that
of the attack on this node. -/
theorem nearest_attack (a : Argument) :
    a.subtree = breadthFirst [a] ∧
    a.addresses.map a.nodeAt? = a.subtree.map some ∧
    a.addresses.Nodup ∧ (∀ p, p ∈ a.addresses ↔ (a.nodeAt? p).isSome = true) ∧
    a.addresses.Pairwise (fun p q ↦ p.length ≤ q.length) ∧
    (∀ p i, p ++ [i] ∈ a.addresses →
      p ∈ a.addresses ∧ a.addresses.idxOf p < a.addresses.idxOf (p ++ [i])) ∧
    ∀ (restricted : Bool) (b : Argument),
      (b.deepAttack? restricted a = none ↔
        ∀ p n, a.nodeAt? p = some n → b.attackOn? restricted n = none) ∧
      ∀ attack, b.deepAttack? restricted a = some attack → ∃ p,
        a.nodeAt? p = some attack.target ∧
        b.attackOn? restricted attack.target = some attack.kind ∧
        ∀ q n, a.nodeAt? q = some n → (b.attackOn? restricted n).isSome = true →
          p.length ≤ q.length := by
  refine ⟨a.subtree_eq_breadthFirst, a.map_nodeAt?_addresses, a.nodup_addresses,
    fun p ↦ mem_addresses, a.pairwise_addresses, fun p i hi ↦ ?_, fun restricted b ↦ ⟨?_, ?_⟩⟩
  · have hp : p ∈ a.addresses := by
      have hsome := mem_addresses.mp hi
      rw [nodeAt?_append] at hsome
      exact mem_addresses.mpr (Option.isSome_of_isSome_bind hsome)
    exact ⟨hp, idxOf_lt_idxOf hp hi (by simp)⟩
  · rw [deepAttack?_eq_findSome?, List.findSome?_eq_none_iff]
    constructor
    · intro h p n hn
      have hnone := h p (mem_addresses.mpr (Option.isSome_of_eq_some hn))
      rwa [hn, Option.bind_some, Option.map_eq_none_iff] at hnone
    · intro h p _
      cases hn : a.nodeAt? p with
      | none => rfl
      | some n => rw [Option.bind_some, h p n hn, Option.map_none]
  · intro attack hattack
    rw [deepAttack?_eq_findSome?] at hattack
    obtain ⟨before, p, after, hsplit, hfound, hbefore⟩ := List.findSome?_eq_some_iff.mp hattack
    obtain ⟨n, hn, hmapped⟩ := Option.bind_eq_some_iff.mp hfound
    obtain ⟨kind, hkind, rfl⟩ := Option.map_eq_some_iff.mp hmapped
    refine ⟨p, hn, hkind, fun q m hm hattacked ↦ ?_⟩
    have hq : q ∈ a.addresses := mem_addresses.mpr (Option.isSome_of_eq_some hm)
    have hordered := a.pairwise_addresses
    rw [hsplit] at hq hordered
    rcases List.mem_append.mp hq with hq | hq
    · -- What is listed before the target is not attacked.
      have hnone := hbefore q hq
      rw [hm, Option.bind_some, Option.map_eq_none_iff] at hnone
      rw [hnone] at hattacked
      cases hattacked
    · rcases List.mem_cons.mp hq with rfl | hq
      · exact le_rfl
      · exact (List.pairwise_cons.mp (List.pairwise_append.mp hordered).2.1).1 q hq

end Argument

def Theory.supportedTwice : Theory :=
  ofRules .weakestLink [.plain (.const "a") [.const "b", .const "d"] .half,
    .plain (.const "b") [.const "d"] .half, .plain (.const "d") [] .half,
    .plain (.const "~d") [] .half]

open Theory in
theorem supportedTwice_nearest_attack :
    ∃ a ∈ ((supportedTwice.arguments 0 (.const "a")).toList ⟨1, 1⟩).1,
    ∃ b ∈ ((supportedTwice.arguments 0 (.const "~d")).toList ⟨1, 1⟩).1, ∃ attack n,
      [0] ++ [0] ∈ a.addresses ∧ a.nodeAt? [0, 0] = some n ∧
      (b.attackOn? false n).isSome = true ∧ b.deepAttack? false a = some attack ∧
      ([0] ∈ a.addresses ∧ a.addresses.idxOf [0] < a.addresses.idxOf ([0] ++ [0])) ∧
      ∃ p, a.nodeAt? p = some attack.target ∧
        b.attackOn? false attack.target = some attack.kind ∧ p.length ≤ 2 := by
  have hcheck : (((supportedTwice.arguments 0 (.const "a")).toList ⟨1, 1⟩).1.any fun a ↦
      ((supportedTwice.arguments 0 (.const "~d")).toList ⟨1, 1⟩).1.any fun b ↦
        (b.deepAttack? false a).isSome &&
          (a.nodeAt? [0, 0]).any fun n ↦ (b.attackOn? false n).isSome) = true := by
    decide +kernel
  obtain ⟨a, ha, hcheck⟩ := List.any_eq_true.mp hcheck
  obtain ⟨b, hb, hcheck⟩ := List.any_eq_true.mp hcheck
  obtain ⟨hattack, hnode⟩ := Bool.and_eq_true_iff.mp hcheck
  obtain ⟨attack, hattack⟩ := Option.isSome_iff_exists.mp hattack
  obtain ⟨n, hn, hattacked⟩ := (Option.any_eq_true _ _).mp hnode
  have hmem : [0] ++ [0] ∈ a.addresses :=
    Argument.mem_addresses.mpr (Option.isSome_of_eq_some hn)
  obtain ⟨-, -, -, -, -, hparent, hnearest⟩ := a.nearest_attack
  obtain ⟨p, htarget, hkind, hleast⟩ := (hnearest false b).2 attack hattack
  exact ⟨a, ha, b, hb, attack, n, hmem, hn, hattacked, hattack, hparent [0] 0 hmem, p, htarget,
    hkind, hleast [0, 0] n hn hattacked⟩

end Argumentation
