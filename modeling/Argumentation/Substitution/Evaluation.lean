import Argumentation.Substitution.Basic

namespace Argumentation

inductive Evaluation where
  | succeeded (s : Substitution)
  | failed
  /-- The goal is up to the rules: negation as failure, or arithmetic without a value. -/
  | lookup

namespace Evaluation

def ofBool (holds : Bool) (s : Substitution) : Evaluation :=
  if holds then succeeded s else failed

/-- The left side is the value of the right side, which is no bare variable; an unbound left side
is bound to it. -/
def ofIs (l r : Term) (s : Substitution) : Evaluation :=
  match r.evaluate with
  | none => failed
  | some value =>
    match l with
    | .var v =>
      let extended := s.add v (.num value)
      ofBool extended.isConsistent extended
    | .num n => ofBool (n.same value) s
    | _ => failed

def ofComparison (rel : Comparison) (l r : Term) (s : Substitution) : Evaluation :=
  match l.evaluate, r.evaluate with
  | some a, some b => ofBool ((a.compare? b).any rel.holds) s
  | _, _ => failed

end Evaluation

def Operator.evaluate (op : Operator) (args : List Term) (s : Substitution) : Evaluation :=
  match op, args.map s.apply with
  | .arith _, [l, r] =>
    if l.evaluate.isSome && r.evaluate.isSome then .succeeded s else .lookup
  | .identical, [l, r] => .ofBool (l.same r) s
  | .notIdentical, [l, r] => .ofBool (!l.same r) s
  | .is, [l, r] => .ofIs l r s
  | .nonvar, [x] => .ofBool (!x.isVariable) s
  | .notProvable, [_] => .lookup
  | .comparison rel, [l, r] => .ofComparison rel l r s
  | _, _ => .failed

end Argumentation
