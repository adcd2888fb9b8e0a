import Argumentation.Error
import Argumentation.Term.Basic

namespace Argumentation

def Operator.ofSymbol (s : String) : Except TermError Operator :=
  match ofSymbol? s with
  | some op => .ok op
  | none => .error (.unknownOperator s)

namespace Term

def compound (functor : String) (args : List Term) : Except TermError Term :=
  if functor = "" ∨ functor = "~" then .error .emptyFunctor else .ok (app (.name functor) args)

def constant (functor : String) : Except TermError Term :=
  compound functor []

def builtin (op : Operator) (args : List Term) : Except TermError Term :=
  if args.length = op.arity then .ok (app (.op op) args)
  else .error (.operatorArity op.symbol op.arity args.length)

def ofFunctor (functor : String) (args : List Term) : Except TermError Term :=
  match Operator.ofSymbol? functor with
  | some op => if args.length = op.arity then builtin op args else compound functor args
  | none => compound functor args

end Term

end Argumentation
