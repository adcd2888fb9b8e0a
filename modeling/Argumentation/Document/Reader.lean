import Argumentation.Document.Basic
import Argumentation.Error
import Argumentation.Json.Reader

namespace Argumentation

namespace TermSpec

def valuesOf (key : String) (fields : List (String × Json)) : List Json :=
  (fields.filter (·.1 == key)).map (·.2)

def textField? (key : String) (fields : List (String × Json)) : Option String :=
  match valuesOf key fields with
  | [.string s] => some s
  | _ => none

/-- The first of the object forms that fits: a variable, a constant, a functor with arguments. The
arguments of the third form are given as they were read, one entry for each time that their key
occurs. -/
def ofFields? (fields : List (String × Json)) (args : List (Option (List TermSpec))) :
    Option TermSpec :=
  match textField? "var" fields with
  | some s => some (var s)
  | none =>
    match textField? "const" fields with
    | some s => some (const s)
    | none =>
      match textField? "functor" fields, args with
      | some f, [] => some (compound f [])
      | some f, [some ts] => some (compound f ts)
      | _, _ => none

mutual

def ofJson? : Json → Option TermSpec
  | .int n =>
    if isInt64 n then some (int (Int64.ofInt n))
    else (Json.int n).double?.map float
  | .float x => some (float x)
  | .string s => some (name s)
  | .object fields => ofFields? fields (argsFields fields)
  | _ => none

def ofItems? : List Json → Option (List TermSpec)
  | [] => some []
  | x :: xs =>
    match ofJson? x, ofItems? xs with
    | some t, some ts => some (t :: ts)
    | _, _ => none

def argsFields : List (String × Json) → List (Option (List TermSpec))
  | [] => []
  | (key, .array items) :: fields =>
    if key = "args" then ofItems? items :: argsFields fields else argsFields fields
  | (key, _) :: fields => if key = "args" then none :: argsFields fields else argsFields fields

end

def read? (j : Json) : Option TermSpec :=
  if j.isSound then ofJson? j else none

end TermSpec

namespace Json

/-- The fields of a record by the given keys, none where one is left out. An object has each of the
keys at most once; an array has no more items than there are keys. -/
def recordFields? (keys : List String) : Json → Option (List (Option Json))
  | object fields =>
    keys.mapM fun key ↦
      match TermSpec.valuesOf key fields with
      | [] => some none
      | [x] => some (some x)
      | _ => none
  | array items =>
    if items.length ≤ keys.length then
      some (items.map some ++ List.replicate (keys.length - items.length) none)
    else none
  | _ => none

def readOr {α : Type} (default : α) (read : Json → Option α) : Option Json → Option α
  | none => some default
  | some j => read j

def readNullable {α : Type} (read : Json → Option α) : Option Json → Option (Option α)
  | none => some none
  | some null => some none
  | some j => (read j).map some

def readList {α : Type} (read : Json → Option α) (j : Json) : Option (List α) :=
  j.items?.bind fun items ↦ items.mapM read

end Json

def RuleSpec.read? (j : Json) : Option RuleSpec := do
  match ← j.recordFields? ["head", "body", "degree", "name", "caption", "description"] with
  | [head, body, degree, name, caption, description] =>
    return {
      head := ← head.bind TermSpec.read?
      body := ← Json.readOr [] (Json.readList TermSpec.read?) body
      degree := ← Json.readOr 1 Json.double? degree
      name := ← Json.readNullable TermSpec.read? name
      caption := ← Json.readNullable Json.string? caption
      description := ← Json.readNullable Json.string? description }
  | _ => none

def QuerySpec.read? : Json → Option QuerySpec
  | .array items => (items.mapM TermSpec.read?).map conjunction
  | j => (TermSpec.read? j).map single

namespace RuleDocument

def read? (j : Json) : Option RuleDocument := do
  match ← j.recordFields? ["rules", "queries"] with
  | [rules, queries] =>
    return {
      rules := ← Json.readOr [] (Json.readList RuleSpec.read?) rules
      queries := ← Json.readOr [] (Json.readList QuerySpec.read?) queries }
  | _ => none

def ofText (s : String) : Except Error RuleDocument :=
  match Json.ofText? s with
  | none => .error (.documentMalformed "not a JSON text")
  | some j =>
    match read? j with
    | none => .error (.documentMalformed "not a rule document")
    | some d => .ok d

end RuleDocument

end Argumentation
