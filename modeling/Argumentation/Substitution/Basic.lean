import Argumentation.Term.Text

namespace Argumentation

abbrev Bindings := List (Variable × Term)

namespace Bindings

def size (b : Bindings) : Nat :=
  b.foldr (fun e n ↦ e.2.size + n) 0

def without (b : Bindings) (v : Variable) : Bindings :=
  b.filter (·.1 != v)

/-- The term that a variable stands for when at most `n` bindings are followed. A binding is used
once on each path, so a variable met again inside its own value stays as it is. -/
def follow : (n : Nat) → Bindings → Variable → Term
  | 0, _, v => .var v
  | n + 1, b, v =>
    match b.lookup v with
    | some t => t.bind (follow n (b.without v))
    | none => .var v

end Bindings

structure Substitution where
  bindings : Bindings
  banned : List Variable
  clashed : Bool
  deriving Inhabited

namespace Substitution

def empty : Substitution :=
  ⟨[], [], false⟩

def get? (s : Substitution) (v : Variable) : Option Term :=
  s.bindings.lookup v

def isBound (s : Substitution) (v : Variable) : Bool :=
  (s.get? v).isSome

def isBanned (s : Substitution) (v : Variable) : Bool :=
  s.banned.contains v

def isConsistent (s : Substitution) : Bool :=
  s.banned.isEmpty && !s.clashed

def size (s : Substitution) : Nat :=
  s.bindings.length

def apply (s : Substitution) (t : Term) : Term :=
  t.bind (Bindings.follow s.bindings.length s.bindings)

def ban (s : Substitution) (v : Variable) : Substitution :=
  { s with
    bindings := s.bindings.without v
    banned := if s.isBanned v then s.banned else v :: s.banned }

def clash (s : Substitution) : Substitution :=
  { s with clashed := true }

/-- Binds a variable. A banned variable stays unbound, a binding to itself or to the same term
again changes nothing, and a different binding bans the variable. -/
def add (s : Substitution) (v : Variable) (t : Term) : Substitution :=
  if s.isBanned v then s
  else if t.same (.var v) then s
  else match s.get? v with
    | some u => if u.same t then s else s.ban v
    | none => { s with bindings := (v, t) :: s.bindings }

def merge (s u : Substitution) : Substitution :=
  let banned := u.banned.foldl ban s
  let bound := u.bindings.foldl (fun acc (v, t) ↦ acc.add v t) banned
  { bound with clashed := s.clashed || u.clashed }

/-- First `s`, then `u`: the values of `s` under `u`, merged with `u`. -/
def compose (s u : Substitution) : Substitution :=
  merge { s with bindings := s.bindings.map fun (v, t) ↦ (v, u.apply t) } u

def same (s u : Substitution) : Bool :=
  s.bindings.length == u.bindings.length &&
    s.bindings.all (fun (v, t) ↦ (u.get? v).any t.same) &&
    s.banned.length == u.banned.length && s.banned.all u.isBanned && s.clashed == u.clashed

def walkWithin (s : Substitution) : (n : Nat) → Term → Term
  | 0, t => t
  | n + 1, .var v =>
    match s.get? v with
    | some t => s.walkWithin n t
    | none => .var v
  | _ + 1, t => t

/-- The bindings of variables to variables followed from the top of a term. Without a cycle among
the bindings the chain is no longer than their number. -/
def walk (s : Substitution) (t : Term) : Term :=
  s.walkWithin (s.bindings.length + 1) t

def ordered (s : Substitution) : Bindings :=
  s.bindings.mergeSort (fun a b ↦ a.1.id ≤ b.1.id)

def text (s : Substitution) : String :=
  let pairs := s.ordered.map fun (v, t) ↦ v.name ++ "/" ++ t.text
  "\x7b" ++ Term.commaList pairs ++ (if s.isConsistent then "" else " | inconsistent") ++ "\x7d"

end Substitution

end Argumentation
