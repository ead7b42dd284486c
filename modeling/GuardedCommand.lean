import GuardedCommand.Assignment.Normal
import GuardedCommand.CommandLine.Arguments
import GuardedCommand.CommandLine.Host
import GuardedCommand.CommandLine.Run
import GuardedCommand.Config.Basic
import GuardedCommand.Config.Resolve
import GuardedCommand.Decimal.Basic
import GuardedCommand.Decimal.Precision
import GuardedCommand.Files.Path
import GuardedCommand.Files.Tree
import GuardedCommand.Interchange.Formula
import GuardedCommand.Interchange.Record
import GuardedCommand.Interchange.Statement
import GuardedCommand.Json.Basic
import GuardedCommand.Json.Number
import GuardedCommand.Json.Printer
import GuardedCommand.Json.Reader
import GuardedCommand.Json.Token
import GuardedCommand.Main
import GuardedCommand.Names.Basic
import GuardedCommand.Names.Fresh
import GuardedCommand.Obligation.Command
import GuardedCommand.Obligation.Elementary
import GuardedCommand.Obligation.Frame
import GuardedCommand.Obligation.Generate
import GuardedCommand.Obligation.Rule
import GuardedCommand.Proofs.Assignment
import GuardedCommand.Proofs.Background
import GuardedCommand.Proofs.BackgroundText
import GuardedCommand.Proofs.ClaimMeaning
import GuardedCommand.Proofs.ClaimScope
import GuardedCommand.Proofs.Commands
import GuardedCommand.Proofs.Derivation
import GuardedCommand.Proofs.Entailment
import GuardedCommand.Proofs.Exactness
import GuardedCommand.Proofs.Execution
import GuardedCommand.Proofs.Frame
import GuardedCommand.Proofs.FreshNames
import GuardedCommand.Proofs.Idioms
import GuardedCommand.Proofs.Interchange
import GuardedCommand.Proofs.JsonText
import GuardedCommand.Proofs.LoopBounds
import GuardedCommand.Proofs.LoopSpecifications
import GuardedCommand.Proofs.Lowering
import GuardedCommand.Proofs.LoweringSteps
import GuardedCommand.Proofs.Meaning
import GuardedCommand.Proofs.NestedLoops
import GuardedCommand.Proofs.Node
import GuardedCommand.Proofs.Provenance
import GuardedCommand.Proofs.Runs
import GuardedCommand.Proofs.Shorthands
import GuardedCommand.Proofs.Soundness
import GuardedCommand.Proofs.Substitution
import GuardedCommand.Proofs.SurfaceTokens
import GuardedCommand.Proofs.Targets
import GuardedCommand.Proofs.TermMeaning
import GuardedCommand.Proofs.TermText
import GuardedCommand.Proofs.Termination
import GuardedCommand.Proofs.VisitedLoops
import GuardedCommand.Proofs.Writes
import GuardedCommand.Prover.Background
import GuardedCommand.Prover.Builtin
import GuardedCommand.Prover.Hint
import GuardedCommand.Prover.Lowering
import GuardedCommand.Prover.Registry
import GuardedCommand.Prover.Shape
import GuardedCommand.Prover.Term
import GuardedCommand.Prover.Trigger
import GuardedCommand.Prover.Verdict
import GuardedCommand.Report.Diagnostic
import GuardedCommand.Report.Summary
import GuardedCommand.Shorthand.Basic
import GuardedCommand.Shorthand.Define
import GuardedCommand.Source.Position
import GuardedCommand.Specification.Basic
import GuardedCommand.Substitution.Basic
import GuardedCommand.Surface.Formula
import GuardedCommand.Surface.Program
import GuardedCommand.Syntax.Equality
import GuardedCommand.Syntax.Formula
import GuardedCommand.Syntax.Statement
import GuardedCommand.Task.Basic
import GuardedCommand.Task.Prepare
import GuardedCommand.Task.Verify
import GuardedCommand.Text.Blank
import GuardedCommand.Text.Uppercase
import GuardedCommand.Toml.Basic
import GuardedCommand.Toml.Reader
import GuardedCommand.Toml.Scalar
import GuardedCommand.Toml.Text
import GuardedCommand.Proofs.SurfaceMeaning
import GuardedCommand.Proofs.SurfaceReading
import GuardedCommand.Proofs.NormalForm
import GuardedCommand.Proofs.SubstitutionRules
import GuardedCommand.Proofs.Capture
import GuardedCommand.Proofs.Kinds
import GuardedCommand.Proofs.IdentitySubstitution
import GuardedCommand.Proofs.Subgoals
import GuardedCommand.Proofs.Vocabulary
import GuardedCommand.Proofs.WellKinded
import GuardedCommand.Proofs.ObligationOrder
import GuardedCommand.Proofs.BoundNames
import GuardedCommand.Proofs.AuxiliaryNames
import GuardedCommand.Proofs.Failures
import GuardedCommand.Proofs.ExpansionRules
import GuardedCommand.Proofs.Calls
import GuardedCommand.Proofs.SingleShorthand
import GuardedCommand.Proofs.CallGraph
import GuardedCommand.Proofs.ExpansionNames
import GuardedCommand.Proofs.DefinitionOrder
import GuardedCommand.Proofs.ExclusiveClaims
import GuardedCommand.Proofs.HintScope
import GuardedCommand.Proofs.Attribution
import GuardedCommand.Proofs.Dependence
import GuardedCommand.Proofs.Positions
import GuardedCommand.Proofs.RegistryHistory
