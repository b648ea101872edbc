import LayoutInference.Analysis
import LayoutInference.Apparent
import LayoutInference.Apparent.Evaluation
import LayoutInference.CommandLine
import LayoutInference.CommandLine.Arguments
import LayoutInference.CommandLine.Help
import LayoutInference.Diagnostic
import LayoutInference.Document
import LayoutInference.Evidence
import LayoutInference.Fault
import LayoutInference.Files
import LayoutInference.Inference
import LayoutInference.Inference.Collection
import LayoutInference.Inference.Current
import LayoutInference.Inference.Derivation
import LayoutInference.Inference.Resolution
import LayoutInference.Layout
import LayoutInference.Layout.FinalName
import LayoutInference.Layout.Registry
import LayoutInference.Layout.Rendering
import LayoutInference.Main
import LayoutInference.NameSupply
import LayoutInference.Program
import LayoutInference.Program.Lowering
import LayoutInference.Program.Node
import LayoutInference.Proofs.Agreement
import LayoutInference.Proofs.Allocation
import LayoutInference.Proofs.ApparentCache
import LayoutInference.Proofs.ApparentText
import LayoutInference.Proofs.Bodies
import LayoutInference.Proofs.Collection
import LayoutInference.Proofs.Convergence
import LayoutInference.Proofs.Copies
import LayoutInference.Proofs.Declarators
import LayoutInference.Proofs.Derivation
import LayoutInference.Proofs.DistinctFields
import LayoutInference.Proofs.EmittedText
import LayoutInference.Proofs.EvidenceInvariants
import LayoutInference.Proofs.Evolution
import LayoutInference.Proofs.Extension
import LayoutInference.Proofs.FinalNames
import LayoutInference.Proofs.FittingDerivation
import LayoutInference.Proofs.FittingLayouts
import LayoutInference.Proofs.FittingRuns
import LayoutInference.Proofs.FixedPoint
import LayoutInference.Proofs.FreshNames
import LayoutInference.Proofs.Growth
import LayoutInference.Proofs.Interning
import LayoutInference.Proofs.KeptLiterals
import LayoutInference.Proofs.Keys
import LayoutInference.Proofs.LawfulRuns
import LayoutInference.Proofs.Laws
import LayoutInference.Proofs.LayoutMerging
import LayoutInference.Proofs.Links
import LayoutInference.Proofs.LiteralGuard
import LayoutInference.Proofs.Literals
import LayoutInference.Proofs.Lockstep
import LayoutInference.Proofs.Lowering
import LayoutInference.Proofs.Nameless
import LayoutInference.Proofs.NamelessEvidence
import LayoutInference.Proofs.Numbering
import LayoutInference.Proofs.Occurrences
import LayoutInference.Proofs.OwnNames
import LayoutInference.Proofs.Passes
import LayoutInference.Proofs.Preorder
import LayoutInference.Proofs.Promises
import LayoutInference.Proofs.PropertyFrame
import LayoutInference.Proofs.PropertyNames
import LayoutInference.Proofs.PropertyWrites
import LayoutInference.Proofs.Questions
import LayoutInference.Proofs.ReferenceOrder
import LayoutInference.Proofs.References
import LayoutInference.Proofs.Registration
import LayoutInference.Proofs.Renaming
import LayoutInference.Proofs.ReportedLayouts
import LayoutInference.Proofs.ReturnHistory
import LayoutInference.Proofs.Scoping
import LayoutInference.Proofs.SelfContained
import LayoutInference.Proofs.Shapes
import LayoutInference.Proofs.StoreInvariants
import LayoutInference.Proofs.StrictRuns
import LayoutInference.Proofs.SuppliedNames
import LayoutInference.Proofs.Tables
import LayoutInference.Proofs.Usage
import LayoutInference.Proofs.Walk
import LayoutInference.Proofs.Warnings
import LayoutInference.Proofs.Winners
import LayoutInference.Proofs.WriteOrder
import LayoutInference.Proofs.WrittenFields
import LayoutInference.Report
import LayoutInference.Report.Content
import LayoutInference.Report.Declarations
import LayoutInference.Report.Document
import LayoutInference.Script
import LayoutInference.Session
import LayoutInference.Settings
import LayoutInference.Settings.Document
import LayoutInference.Source
import LayoutInference.Text.Base64
import LayoutInference.Text.Decimal
import LayoutInference.Text.Fresh
import LayoutInference.Text.Numeral
import LayoutInference.Text.Printable
import LayoutInference.Text.Quoted
import LayoutInference.Text.Space
import LayoutInference.Text.Timestamp
import LayoutInference.Text.Utf8
import LayoutInference.Tree
import LayoutInference.Yaml.Cursor
import LayoutInference.Yaml.Graph
import LayoutInference.Yaml.Node
import LayoutInference.Yaml.Printer
import LayoutInference.Yaml.Scalar
import LayoutInference.Yaml.Token
import LayoutInference.Yaml.Token.Block
import LayoutInference.Yaml.Token.Plain
import LayoutInference.Yaml.Token.Quoted
import LayoutInference.Yaml.Token.Stream
import LayoutInference.Yaml.Token.Tag
import LayoutInference.Yaml.Trouble
