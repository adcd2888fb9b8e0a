import Argumentation.Number

namespace Argumentation

inductive Operator where
  | arith (op : Arith)
  | comparison (rel : Comparison)
  | identical
  | notIdentical
  | is
  | nonvar
  | notProvable
  deriving DecidableEq, Repr

namespace Operator

def all : List Operator :=
  [arith .add, arith .sub, arith .mul, arith .div, comparison .equal, comparison .notEqual,
    identical, notIdentical, comparison .less, comparison .greater, comparison .lessOrEqual,
    comparison .greaterOrEqual, is, nonvar, notProvable]

def symbol : Operator → String
  | arith .add => "+"
  | arith .sub => "-"
  | arith .mul => "*"
  | arith .div => "/"
  | comparison .equal => "=:="
  | comparison .notEqual => "=\\="
  | comparison .less => "<"
  | comparison .greater => ">"
  | comparison .lessOrEqual => "=<"
  | comparison .greaterOrEqual => ">="
  | identical => "=="
  | notIdentical => "\\=="
  | is => "is"
  | nonvar => "nonvar"
  | notProvable => "\\+"

def ofSymbol? (s : String) : Option Operator :=
  all.find? fun op ↦ op.symbol == s

def arity : Operator → Nat
  | nonvar | notProvable => 1
  | _ => 2

def isArith : Operator → Bool
  | arith _ => true
  | _ => false

def compute : Operator → Number → Number → Option Number
  | arith op, a, b => op.compute a b
  | _, _, _ => none

end Operator

end Argumentation
