import Argumentation.Json.Basic

namespace Argumentation

inductive TermSpec where
  | int (n : Int64)
  | float (x : Float)
  | name (s : String)
  | var (s : String)
  | const (s : String)
  | compound (functor : String) (args : List TermSpec)
  deriving Inhabited

structure RuleSpec where
  head : TermSpec
  body : List TermSpec
  degree : Float
  name : Option TermSpec
  caption : Option String
  description : Option String

inductive QuerySpec where
  | conjunction (terms : List TermSpec)
  | single (term : TermSpec)

structure RuleDocument where
  rules : List RuleSpec
  queries : List QuerySpec

abbrev WriteFloat := Float → Json

namespace TermSpec

mutual

def toJson (write : WriteFloat) : TermSpec → Json
  | int n => .int n.toInt
  | float x => write x
  | name s => .string s
  | var s => .record [("var", .string s)]
  | const s => .record [("const", .string s)]
  | compound f args =>
    .record [("functor", .string f), ("args", .array (toJsonAll write args))]

def toJsonAll (write : WriteFloat) : List TermSpec → List Json
  | [] => []
  | t :: ts => toJson write t :: toJsonAll write ts

end

end TermSpec

def Json.optionalField {α : Type} (key : String) (f : α → Json) (a : Option α) :
    List (String × Json) :=
  (a.map fun x ↦ (key, f x)).toList

def RuleSpec.toJson (write : WriteFloat) (r : RuleSpec) : Json :=
  .record <|
    [("head", r.head.toJson write), ("body", .ofList (TermSpec.toJson write) r.body),
      ("degree", write r.degree)] ++
    Json.optionalField "name" (TermSpec.toJson write) r.name ++
    Json.optionalField "caption" .string r.caption ++
    Json.optionalField "description" .string r.description

def QuerySpec.toJson (write : WriteFloat) : QuerySpec → Json
  | conjunction ts => .ofList (TermSpec.toJson write) ts
  | single t => t.toJson write

def RuleDocument.toJson (write : WriteFloat) (d : RuleDocument) : Json :=
  .record [("rules", .ofList (RuleSpec.toJson write) d.rules),
    ("queries", .ofList (QuerySpec.toJson write) d.queries)]

end Argumentation
