import Argumentation.Decimal.Layout

namespace Argumentation

inductive TermError where
  | emptyFunctor
  | invalidConsequent (term : String)
  | invalidDegree (degree : Float)
  | unknownOperator (symbol : String)
  | operatorArity (symbol : String) (expected actual : Nat)

inductive NameClash where
  | kindOfTerm
  | ownConsequent
  | nameOf (rule : String)

inductive StoreError where
  | duplicateRule (rule : String)
  | nameConflict (name : String) (clash : NameClash)
  | generatedRule (rule source : String)
  | ruleNotFound (id : Nat)
  | noRulesFor (functor : String) (arity bodyLength : Nat)

inductive SettingsError where
  | unsupported (axis value expected : String)
  | threshold (value : Float)
  | malformed (path reason : String)
  | unreadable (path : String)
  | unwritable (path : String)

inductive Error where
  | term (e : TermError)
  | store (e : StoreError)
  | settings (e : SettingsError)
  | documentUnreadable (path : String)
  | documentMalformed (reason : String)
  | documentRule (index : Nat) (source : Error)

namespace TermError

def code : TermError → String
  | emptyFunctor => "aspic::term::empty_functor"
  | invalidConsequent _ => "aspic::term::invalid_consequent"
  | invalidDegree _ => "aspic::term::invalid_degree"
  | unknownOperator _ => "aspic::term::unknown_builtin"
  | operatorArity .. => "aspic::term::builtin_arity"

def message : TermError → String
  | emptyFunctor => "empty functor: constants and compound terms need a non-empty name"
  | invalidConsequent t =>
    "invalid rule consequent `" ++ t ++ "`: only constants and compound terms can be concluded"
  | invalidDegree d => "degree of belief " ++ FloatLayout.degree.text d ++ " is outside (0, 1]"
  | unknownOperator s => "unknown built-in operator `" ++ s ++ "`"
  | operatorArity s expected actual =>
    "built-in `" ++ s ++ "` takes " ++ toString expected ++ " argument(s), got " ++ toString actual

def help : TermError → String
  | emptyFunctor => "Give the constant or compound term a name, e.g. `bird` or `fly(X)`."
  | invalidConsequent _ =>
    "Variables, numbers and built-in predicates cannot head a rule. " ++
      "Wrap the value in a compound term, e.g. `value(3)`."
  | invalidDegree _ =>
    "Use 1.0 for strict rules and a value strictly between 0 and 1 for defeasible ones."
  | unknownOperator _ =>
    "Supported operators are + - * / =:= =\\= == \\== < > =< >= is nonvar \\+."
  | operatorArity .. =>
    "Arithmetic and comparison operators are binary; `nonvar` and `\\+` are unary."

end TermError

def NameClash.text : NameClash → String
  | kindOfTerm => "the term kinds allowed for names (use a constant or compound term)"
  | ownConsequent => "the rule's own consequent"
  | nameOf rule => "the name of rule `" ++ rule ++ "`"

namespace StoreError

def code : StoreError → String
  | duplicateRule _ => "aspic::kb::duplicate_rule"
  | nameConflict .. => "aspic::kb::name_conflict"
  | generatedRule .. => "aspic::kb::auto_generated_removal"
  | ruleNotFound _ => "aspic::kb::rule_not_found"
  | noRulesFor .. => "aspic::kb::predicate_not_found"

def message : StoreError → String
  | duplicateRule r => "duplicate rule: `" ++ r ++ "` already exists (modulo variable renaming)"
  | nameConflict n clash => "rule name `" ++ n ++ "` conflicts with " ++ clash.text
  | generatedRule r source =>
    "rule `" ++ r ++ "` was generated from `" ++ source ++ "` and cannot be removed directly"
  | ruleNotFound id => "rule " ++ toString id ++ " not found"
  | noRulesFor f arity bodyLength =>
    "no rules concluding `" ++ f ++ "/" ++ toString arity ++ "` with " ++ toString bodyLength ++
      " antecedent literal(s)"

def help : StoreError → String
  | duplicateRule _ =>
    "The knowledge base is unchanged. " ++
      "Remove the existing rule first if you meant to replace it."
  | nameConflict .. =>
    "Rule names must be unique (up to unification) and must differ from the " ++
      "rule's own consequent. Choose a different name and retry."
  | generatedRule .. =>
    "Remove the generating rule instead; its rule hooks and transpositions go with it."
  | ruleNotFound _ =>
    "The rule id does not belong to this knowledge base, or the rule was already removed."
  | noRulesFor .. => "Check the predicate catalogue with `kb.catalogue().predicates()`."

end StoreError

namespace SettingsError

def code : SettingsError → String
  | unsupported .. => "aspic::config::unsupported_value"
  | threshold _ => "aspic::config::invalid_threshold"
  | malformed .. => "aspic::config::parse"
  | unreadable _ => "aspic::config::read"
  | unwritable _ => "aspic::config::write"

def message : SettingsError → String
  | unsupported axis value _ => "unsupported " ++ axis ++ " `" ++ value ++ "`"
  | threshold x => "minimum strength " ++ FloatLayout.degree.text x ++ " is outside [0, 1]"
  | malformed path reason => "failed to parse configuration " ++ path ++ ": " ++ reason
  | unreadable path => "failed to read configuration " ++ path
  | unwritable path => "failed to write configuration " ++ path

def help : SettingsError → String
  | unsupported axis _ expected => "Supported values for " ++ axis ++ ": " ++ expected ++ "."
  | threshold _ => "Argument strengths lie in [0, 1]; pick a threshold in that range."
  | malformed .. => "Check the TOML syntax and the field names of ReasonerConfig."
  | unreadable _ => "Ensure the file exists and is readable."
  | unwritable _ => "Check directory permissions and available disk space."

end SettingsError

namespace Error

def code : Error → String
  | term e => e.code
  | store e => e.code
  | settings e => e.code
  | documentUnreadable _ => "aspic::document::read"
  | documentMalformed _ => "aspic::document::json"
  | documentRule .. => "aspic::document::rule"

def message : Error → String
  | term e => e.message
  | store e => e.message
  | settings e => e.message
  | documentUnreadable path => "failed to read rule document " ++ path
  | documentMalformed reason => "invalid rule document: " ++ reason
  | documentRule index _ => "rule " ++ toString index ++ " is invalid"

def help : Error → String
  | term e => e.help
  | store e => e.help
  | settings e => e.help
  | documentUnreadable _ => "Ensure the file exists and is readable."
  | documentMalformed _ =>
    "Rule documents are JSON objects with `rules` and optional `queries` arrays."
  | documentRule .. => "See the underlying error for the offending term."

end Error

end Argumentation
