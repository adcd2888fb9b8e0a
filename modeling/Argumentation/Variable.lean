namespace Argumentation

structure Variable where
  name : String
  id : Nat
  deriving DecidableEq, Repr, Inhabited

namespace Variable

/-- The name whose every occurrence is a variable of its own. -/
def anonymous : String := "_"

def isAnonymous (v : Variable) : Bool :=
  v.name == anonymous

def idText (id : Nat) : String :=
  "_G" ++ toString id

def withId (v : Variable) (id : Nat) : Variable :=
  { v with id }

end Variable

/-- The named variables of one rule, query or other unit of text, and the next free number. -/
structure Scope where
  named : List Variable
  next : Nat
  deriving Repr, Inhabited

namespace Scope

def startingAt (next : Nat) : Scope :=
  ⟨[], next⟩

def fresh (s : Scope) (name : String) : Variable × Scope :=
  (⟨name, s.next⟩, { s with next := s.next + 1 })

/-- The variable called `name`: the one of an earlier mention, or a new one. -/
def mention (s : Scope) (name : String) : Variable × Scope :=
  if name = Variable.anonymous then s.fresh name
  else match s.named.find? (·.name == name) with
    | some v => (v, s)
    | none =>
      let (v, s') := s.fresh name
      (v, { s' with named := v :: s'.named })

def size (s : Scope) : Nat :=
  s.named.length

end Scope

end Argumentation
