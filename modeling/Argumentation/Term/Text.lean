import Argumentation.Term.Basic
import Argumentation.Text.Character

namespace Argumentation.Term

def functorText (functor : String) : String :=
  let quoted (cs : List Char) : List Char :=
    if cs.head?.any Text.isUppercase || cs.any Text.isBlank then '\'' :: cs ++ ['\''] else cs
  match functor.toList with
  | '~' :: c :: cs => String.ofList ('~' :: quoted (c :: cs))
  | cs => String.ofList (quoted cs)

def commaList (texts : List String) : String :=
  ", ".intercalate texts

def operatorText (op : Operator) : List String → String
  | [l, r] => l ++ " " ++ op.symbol ++ " " ++ r
  | [x] => if op = .notProvable then op.symbol ++ " " ++ x else op.symbol ++ "(" ++ x ++ ")"
  | xs => op.symbol ++ "(" ++ commaList xs ++ ")"

mutual

def text : Term → String
  | var v => v.name
  | num n => n.text
  | app (.name f) [] => functorText f
  | app (.name f) xs => functorText f ++ "(" ++ commaList (textAll xs) ++ ")"
  | app (.op op) xs => operatorText op (textAll xs)

def textAll : List Term → List String
  | [] => []
  | x :: xs => text x :: textAll xs

end

def conjunctionText (ts : List Term) : String :=
  commaList (textAll ts)

end Argumentation.Term
