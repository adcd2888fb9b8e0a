import Argumentation.Main
import Argumentation.Proofs.AttackGraph
import Argumentation.Proofs.RelatedLists
import Argumentation.Proofs.Dialogue.Memory
import Argumentation.Proofs.Grounded.Soundness
import Argumentation.Proofs.Argument.Form
import Argumentation.Proofs.Argument.Ledger
import Argumentation.Proofs.Term.Plain
import Argumentation.Proofs.Argument.Ground
import Argumentation.Proofs.Argument.Similarity
import Argumentation.Proofs.Argument.Denials
import Argumentation.Proofs.Dialogue.Attackers
import Argumentation.Proofs.Game.Basic
import Argumentation.Proofs.Game.Sceptical
import Argumentation.Proofs.Game.Reserves
import Argumentation.Proofs.Game.Credulous
import Argumentation.Proofs.Game.Strategy
import Argumentation.Proofs.Game.Resilience
import Argumentation.Proofs.Game.Inclusion
import Argumentation.Proofs.Dialogue.Coherence
import Argumentation.Proofs.Dialogue.Mirror
import Argumentation.Proofs.Grounded.Board
import Argumentation.Proofs.Preferred.Board
import Argumentation.Proofs.Dialogue.Reached
import Argumentation.Proofs.Preferred.Soundness
import Argumentation.Proofs.Dialogue.Moves
import Argumentation.Proofs.Dialogue.Termination
import Argumentation.Proofs.Dialogue.Verdicts
import Argumentation.Proofs.Dialogue.Entries
import Argumentation.Proofs.Grounded.Completeness
import Argumentation.Proofs.Preferred.Completeness
import Argumentation.Proofs.Term.Binding
import Argumentation.Proofs.Term.Renumbering
import Argumentation.Proofs.Term.Composition
import Argumentation.Proofs.Substitution.Renumbering
import Argumentation.Proofs.Substitution.Acyclic
import Argumentation.Proofs.Substitution.Soundness
import Argumentation.Proofs.Substitution.Evaluation
import Argumentation.Proofs.Argument.Drawing
import Argumentation.Proofs.Argument.Built
import Argumentation.Proofs.Argument.Soundness
import Argumentation.Proofs.Argument.Renumbering
import Argumentation.Proofs.Argument.Strength
import Argumentation.Proofs.Argument.Recursion
import Argumentation.Proofs.Argument.Agreement
import Argumentation.Proofs.Argument.Threshold
import Argumentation.Proofs.Argument.Streams
import Argumentation.Proofs.RuleStore.Indexing
import Argumentation.Proofs.Argument.Derivation
import Argumentation.Proofs.Substitution.Termination
import Argumentation.Proofs.Argument.Endings
import Argumentation.Proofs.Term.Variant
import Argumentation.Proofs.RuleStore.Generated
import Argumentation.Proofs.RuleStore.Transpositions
import Argumentation.Proofs.Term.Congruence
import Argumentation.Proofs.Argument.Claims
import Argumentation.Proofs.Substitution.Frame
import Argumentation.Proofs.Argument.Relocation
import Argumentation.Proofs.Argument.Absence
import Argumentation.Proofs.RuleStore.Changes
import Argumentation.Proofs.RuleStore.Names
import Argumentation.Proofs.RuleStore.Predicates
import Argumentation.Proofs.RuleStore.Lookups
import Argumentation.Proofs.RuleStore.Hooks
import Argumentation.Proofs.RuleStore.Closure
import Argumentation.Proofs.Substitution.Resemblance
import Argumentation.Proofs.RuleStore.FreshNames
import Argumentation.Proofs.RuleStore.Duplicates
import Argumentation.Proofs.Rule.Basic
import Argumentation.Proofs.Term.Instance
import Argumentation.Proofs.Substitution.Completeness
import Argumentation.Proofs.Substitution.Unifiers
import Argumentation.Proofs.Substitution.Resolution
import Argumentation.Proofs.Substitution.Matching
import Argumentation.Proofs.RuleStore.OwnConclusions
import Argumentation.Proofs.RuleStore.GroundNames
import Argumentation.Proofs.RuleStore.Failures
import Argumentation.Proofs.RuleStore.RoundTrip
import Argumentation.Proofs.Argument.Register
import Argumentation.Proofs.Dialogue.Findings
import Argumentation.Proofs.Dialogue.Record
import Argumentation.Proofs.Dialogue.Roles
import Argumentation.Proofs.Dialogue.Evaluations
import Argumentation.Proofs.Preferred.Explanation
import Argumentation.Proofs.Dialogue.Casting
import Argumentation.Proofs.Dialogue.Report
import Argumentation.Proofs.Preferred.Account
import Argumentation.Proofs.Dialogue.Replay
import Argumentation.Proofs.Grounded.Determination
import Argumentation.Proofs.Grounded.Certificate
import Argumentation.Proofs.Argument.Passage
import Argumentation.Proofs.Argument.Twins
import Argumentation.Proofs.Dialogue.Tandem
import Argumentation.Proofs.Dialogue.Counterparts
import Argumentation.Proofs.Dialogue.Conduct
import Argumentation.Proofs.Dialogue.Recall
import Argumentation.Proofs.Dialogue.History
import Argumentation.Proofs.Argument.Strictness
import Argumentation.Proofs.Dialogue.Provenance
import Argumentation.Proofs.Dialogue.Safety
import Argumentation.Proofs.Substitution.Entries
import Argumentation.Proofs.Substitution.Bans
import Argumentation.Proofs.Substitution.SelfBindings
import Argumentation.Proofs.Substitution.Merging
import Argumentation.Proofs.Substitution.Composition
import Argumentation.Proofs.Term.Renaming
import Argumentation.Proofs.Term.Negation
import Argumentation.Proofs.Term.Arithmetic
import Argumentation.Proofs.Argument.Links
import Argumentation.Proofs.Argument.Sources
import Argumentation.Proofs.Dialogue.Interchange
import Argumentation.Proofs.Argument.Breadth
import Argumentation.Proofs.Argument.Facts
import Argumentation.Proofs.Argument.DepthBound
import Argumentation.Proofs.RuleStore.Recursion
import Argumentation.Proofs.Document.Scoping
import Argumentation.Proofs.Argument.Values
import Argumentation.Proofs.Argument.Trace
import Argumentation.Proofs.Argument.Instances
import Argumentation.Proofs.Substitution.Symmetry
import Argumentation.Proofs.RuleStore.NameSearch
import Argumentation.Proofs.RuleStore.Numbering
