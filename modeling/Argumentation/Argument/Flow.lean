namespace Argumentation

structure Supply where
  freeVariable : Nat
  freeArgument : Nat
  deriving Repr, DecidableEq

inductive Flow (α : Type) where
  | done
  | yield (a : α) (rest : Unit → Flow α)
  | takeVariables (n : Nat) (next : Nat → Flow α)
  | takeArgument (next : Nat → Flow α)

namespace Flow

variable {α β : Type}

def pure (a : α) : Flow α :=
  .yield a fun _ ↦ .done

def append : Flow α → (Unit → Flow α) → Flow α
  | .done, k => k ()
  | .yield a rest, k => .yield a fun _ ↦ (rest ()).append k
  | .takeVariables n next, k => .takeVariables n fun base ↦ (next base).append k
  | .takeArgument next, k => .takeArgument fun id ↦ (next id).append k

def bind : Flow α → (α → Flow β) → Flow β
  | .done, _ => .done
  | .yield a rest, f => (f a).append fun _ ↦ (rest ()).bind f
  | .takeVariables n next, f => .takeVariables n fun base ↦ (next base).bind f
  | .takeArgument next, f => .takeArgument fun id ↦ (next id).bind f

def concat : List β → (β → Flow α) → Flow α
  | [], _ => .done
  | b :: bs, f => (f b).append fun _ ↦ concat bs f

/-- Another flow if this one has no element. It is drawn up to its first element to find out. -/
def ifEmpty : Flow α → Flow β → Flow β
  | .done, k => k
  | .yield _ _, _ => .done
  | .takeVariables n next, k => .takeVariables n fun base ↦ (next base).ifEmpty k
  | .takeArgument next, k => .takeArgument fun id ↦ (next id).ifEmpty k

def next : Flow α → Supply → Option (α × Flow α) × Supply
  | .done, s => (none, s)
  | .yield a rest, s => (some (a, rest ()), s)
  | .takeVariables n k, s => (k s.freeVariable).next { s with freeVariable := s.freeVariable + n }
  | .takeArgument k, s => (k s.freeArgument).next { s with freeArgument := s.freeArgument + 1 }

def toList : Flow α → Supply → List α × Supply
  | .done, s => ([], s)
  | .yield a rest, s =>
    let (as, s') := (rest ()).toList s
    (a :: as, s')
  | .takeVariables n k, s => (k s.freeVariable).toList { s with freeVariable := s.freeVariable + n }
  | .takeArgument k, s => (k s.freeArgument).toList { s with freeArgument := s.freeArgument + 1 }

def take : (n : Nat) → Flow α → Supply → List α × Flow α × Supply
  | 0, f, s => ([], f, s)
  | n + 1, f, s =>
    match f.next s with
    | (none, s') => ([], .done, s')
    | (some (a, rest), s') =>
      let (as, final) := take n rest s'
      (a :: as, final)

end Flow

end Argumentation
