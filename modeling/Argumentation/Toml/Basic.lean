import Argumentation.Toml.Moment

namespace Argumentation

/-- How a table came into a document, which decides what may be added to it. -/
inductive TableOrigin where
  | header
  | implied
  | dotted
  | inline
  deriving DecidableEq, Repr

inductive Toml where
  | string (s : String)
  | int (n : Int)
  | float (x : Float)
  | bool (b : Bool)
  | moment
  | array (items : List Toml)
  | table (origin : TableOrigin) (entries : List (String × Toml))
  | tables (each : List (List (String × Toml)))
  deriving Inhabited

namespace Toml

abbrev Entries := List (String × Toml)

def erase (key : String) (es : Entries) : Entries :=
  es.filter (·.1 != key)

def put (key : String) (x : Toml) (es : Entries) : Entries :=
  if es.any (·.1 == key) then es.map fun e ↦ if e.1 = key then (key, x) else e
  else es ++ [(key, x)]

/-- A value entered under a dotted key. The tables on the way are new or made by dotted keys; only
before the last step they may be of another kind that its header does not close. -/
def enter : (path : List String) → String → Toml → Entries → Option Entries
  | [], key, x, es => if es.any (·.1 == key) then none else some (es ++ [(key, x)])
  | p :: path, key, x, es =>
    match es.lookup p with
    | none => (enter path key x []).map fun sub ↦ put p (.table .dotted sub) es
    | some (.table .dotted sub) =>
      (enter path key x sub).map fun sub ↦ put p (.table .dotted sub) es
    | some (.table .implied sub) =>
      if path.isEmpty then none
      else (enter path key x sub).map fun sub ↦ put p (.table .implied sub) es
    | some (.tables each) =>
      match each.getLast? with
      | none => none
      | some last =>
        if path.isEmpty then none
        else (enter path key x last).map fun sub ↦ put p (.tables (each.dropLast ++ [sub])) es
    | some _ => none

def updateAt (f : Entries → Option Entries) : (path : List String) → Entries → Option Entries
  | [], es => f es
  | p :: path, es =>
    match es.lookup p with
    | none => (updateAt f path []).map fun sub ↦ put p (.table .implied sub) es
    | some (.table origin sub) =>
      if origin = .inline then none
      else (updateAt f path sub).map fun sub ↦ put p (.table origin sub) es
    | some (.tables each) =>
      match each.getLast? with
      | none => none
      | some last =>
        (updateAt f path last).map fun sub ↦ put p (.tables (each.dropLast ++ [sub])) es
    | some _ => none

structure Section where
  path : List String
  repeated : Bool
  pairs : List (List String × String × Toml)

def enterAll (pairs : List (List String × String × Toml)) (es : Entries) : Option Entries :=
  pairs.foldlM (fun es (path, key, x) ↦ enter path key x es) es

/-- A section entered into a document. A table has one header, which may come after those of its
sub-tables and then makes it the last entry. -/
def Section.enter (sec : Section) (root : Entries) : Option Entries :=
  match sec.path.getLast? with
  | none => enterAll sec.pairs root
  | some key =>
    updateAt
      (fun es ↦
        match sec.repeated, es.lookup key with
        | false, none => (enterAll sec.pairs []).map fun sub ↦ put key (.table .header sub) es
        | false, some (.table .implied old) =>
          (enterAll sec.pairs old).map fun sub ↦ erase key es ++ [(key, .table .header sub)]
        | true, none => (enterAll sec.pairs []).map fun sub ↦ put key (.tables [sub]) es
        | true, some (.tables each) =>
          (enterAll sec.pairs []).map fun sub ↦ put key (.tables (each ++ [sub])) es
        | _, _ => none)
      sec.path.dropLast root

def momentKey : String := "$__toml_private_datetime"

/-- A table with its settled entries. If it begins with the key of a moment it is the date or time
written behind that key, and its other entries do not matter. -/
def settleTable (origin : TableOrigin) (es : Entries) (settled : Option Entries) : Option Toml :=
  match es with
  | (key, x) :: _ =>
    if key = momentKey then
      match x with
      | .string s => if isMoment s.toList then some .moment else none
      | _ => none
    else settled.map (.table origin)
  | [] => settled.map (.table origin)

mutual

/-- A value with the moments that are written as tables in their places, none if one of those tables
holds no date or time. -/
def settle : Toml → Option Toml
  | .array items => (settleItems items).map .array
  | .table origin es => settleTable origin es (settleEntries es)
  | .tables each => (settleEach each).map .array
  | x => some x

def settleItems : List Toml → Option (List Toml)
  | [] => some []
  | x :: xs => do return (← settle x) :: (← settleItems xs)

def settleEntries : List (String × Toml) → Option (List (String × Toml))
  | [] => some []
  | (key, x) :: es => do return (key, ← settle x) :: (← settleEntries es)

def settleEach : List (List (String × Toml)) → Option (List Toml)
  | [] => some []
  | es :: each => do return (← settleTable .header es (settleEntries es)) :: (← settleEach each)

end

end Toml

end Argumentation
