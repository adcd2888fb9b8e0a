import Argumentation.CommandLine.Help
import Argumentation.Engine

namespace Argumentation.CommandLine

structure Reply where
  exitCode : UInt8
  output : String
  complaint : String

def versionText : String := "aspic 0.1.0\n"

/-- More moves than a dialogue makes in any time that there is. -/
def moveLimit : Nat := 0x4000000000000000

abbrev Files := String → Option String

def loadSettings (files : Files) (given : Given) : Except Error Settings := do
  let loaded : Except SettingsError Settings :=
    match given.config with
    | none => .ok .default
    | some path =>
      match files path with
      | none => .error (.unreadable path)
      | some text => Settings.ofToml path text
  match loaded.bind fun s ↦ (given.adjust s).check with
  | .ok s => return s
  | .error e => throw (.settings e)

def loadDocument (files : Files) (path : String) : Except Error RuleDocument :=
  match files path with
  | none => .error (.documentUnreadable path)
  | some text => RuleDocument.ofText text

def outcomeText (expression : List Term) (o : Outcome) : String :=
  let answerLine (a : Answer) : String :=
    "  " ++ Term.conjunctionText a.expression ++ "  " ++
      (if a.undefeated then "undefeated" else "defeated") ++ "  [" ++
      Term.commaList (a.arguments.map fun x ↦ x.strength.roundedText) ++ "]\n"
  "?- " ++ Term.conjunctionText expression ++ ".\n" ++
    (if o.answers.isEmpty then "  no arguments\n" else String.join (o.answers.map answerLine)) ++
    "  proof: " ++ toString o.proof.arguments.length ++ " argument(s)\n"

def outcomeReport (expression : List Term) (o : Outcome) : Json :=
  .record [("query", .string (Term.conjunctionText expression)), ("report", o.report .float)]

def outcomes (e : Engine) (next : Nat) (queries : List (List Term)) :
    Option (List (List Term × Outcome)) :=
  queries.mapM fun q ↦ ((e.toQuery q).run moveLimit next).map (q, ·)

def queryReply (json : Bool) (results : List (List Term × Outcome)) : Reply :=
  let text :=
    if json then
      (Json.array (results.map fun (q, o) ↦ outcomeReport q o)).pretty "" ++ "\n"
    else String.join (results.map fun (q, o) ↦ outcomeText q o)
  ⟨0, text, ""⟩

def infoText (e : Engine) : String :=
  let ruleLine (r : Rule) : String :=
    "  " ++ Rule.idText r.id ++ "  " ++ r.text ++
      (match r.caption with
        | some caption => "  -- " ++ caption
        | none => "") ++ "\n"
  e.info ++ "\n" ++ String.join (e.store.userRules.map ruleLine)

def failure (complaint : String) : Reply :=
  ⟨1, "", complaint ++ "\n"⟩

def errorReply (e : Error) : Reply :=
  failure (e.code ++ "\n  " ++ e.message ++ "\n  help: " ++ e.help)

def prepare (files : Files) (document : String) (given : Given) :
    Except Error (Engine × RuleDocument × Nat) := do
  let settings ← loadSettings files given
  let d ← loadDocument files document
  let (e, next) ← Engine.ofDocument settings d
  return (e, d, next)

def run (files : Files) : Request → Reply
  | .version => ⟨0, versionText, ""⟩
  | .help topic => ⟨0, topic.text, ""⟩
  | .misuse => ⟨2, "", Topic.program.text⟩
  | .run command document given =>
    match prepare files document given with
    | .error e => errorReply e
    | .ok (e, d, next) =>
      match command with
      | .info => ⟨0, infoText e, ""⟩
      | .query =>
        match d.buildQueries next with
        | .error err => errorReply err
        | .ok ([], _) => failure "the rule document has no queries"
        | .ok (queries, next) =>
          match outcomes e next queries with
          | some results => queryReply given.json results
          | none => failure "a dialogue ran out of moves"

def Request.paths : Request → List String
  | run _ document given => given.config.toList ++ [document]
  | _ => []

end Argumentation.CommandLine
