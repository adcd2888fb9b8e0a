import Argumentation.CommandLine.Arguments

namespace Argumentation.CommandLine

structure Entry where
  form : String
  purpose : String

namespace Entry

def lines (entries : List Entry) : String :=
  let width := entries.foldl (fun n e ↦ max n e.form.length) 0
  let line (e : Entry) : String :=
    "  " ++ e.form ++ String.ofList (List.replicate (width - e.form.length) ' ') ++ "  " ++
      e.purpose ++ "\n"
  String.join (entries.map line)

def block (heading : String) (entries : List Entry) : String :=
  if entries.isEmpty then "" else "\n" ++ heading ++ ":\n" ++ lines entries

end Entry

namespace Topic

def about : Topic → String
  | program => "ASPIC+ structured argumentation engine"
  | command .query => "Run the queries of a rule document"
  | command .info => "Show knowledge base statistics for a rule document"
  | help => "Print this message or the help of the given subcommand(s)"

def usage : Topic → String
  | program => "aspic [OPTIONS] <COMMAND>"
  | command .query => "aspic query [OPTIONS] <DOCUMENT>"
  | command .info => "aspic info [OPTIONS] <DOCUMENT>"
  | help => "aspic help [COMMAND]..."

def commands : Topic → List Entry
  | program =>
    [⟨"query", about (command .query)⟩, ⟨"info", about (command .info)⟩, ⟨"help", about help⟩]
  | _ => []

def arguments : Topic → List Entry
  | program => []
  | command _ => [⟨"<DOCUMENT>", "Path to the JSON rule document"⟩]
  | help => [⟨"[COMMAND]...", "Print help for the subcommand(s)"⟩]

def configOption : Entry :=
  ⟨"    --config <CONFIG>", "TOML reasoner configuration; flags below override it"⟩

def jsonOption : Entry :=
  ⟨"    --json", "Print the full report as JSON"⟩

def settingOptions : List Entry := [
    ⟨"    --semantics <SEMANTICS>", "Acceptance semantics (grounded, preferred-credulous)"⟩,
    ⟨"    --valuation <VALUATION>", "Argument valuation (weakest-link, last-link)"⟩,
    ⟨"    --transposition", "Generate contrapositives of strict rules"⟩,
    ⟨"    --restricted-rebutting",
      "Forbid defeasible arguments from rebutting strict-topped ones"⟩,
    ⟨"    --min-strength <MIN_STRENGTH>", "Minimum strength of query arguments"⟩,
    ⟨"    --max-depth <MAX_DEPTH>", "Maximum argument nesting depth"⟩]

def helpOption : Entry :=
  ⟨"-h, --help", "Print help"⟩

def versionOption : Entry :=
  ⟨"-V, --version", "Print version"⟩

def options : Topic → List Entry
  | program => configOption :: settingOptions ++ [helpOption, versionOption]
  | command .query => configOption :: jsonOption :: settingOptions ++ [helpOption]
  | command .info => configOption :: settingOptions ++ [helpOption]
  | help => []

def text (t : Topic) : String :=
  t.about ++ "\n\nUsage: " ++ t.usage ++ "\n" ++ Entry.block "Commands" t.commands ++
    Entry.block "Arguments" t.arguments ++ Entry.block "Options" t.options

end Topic

end Argumentation.CommandLine
