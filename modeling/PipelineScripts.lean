import PipelineScripts.Text.Blank
import PipelineScripts.Text.Lines
import PipelineScripts.Text.Decimal
import PipelineScripts.Script.Folding
import PipelineScripts.Script.Inputs
import PipelineScripts.Script.Names
import PipelineScripts.Script.Directive
import PipelineScripts.Path
import PipelineScripts.Script.Block
import PipelineScripts.Yaml.Mark
import PipelineScripts.Yaml.Cursor
import PipelineScripts.Yaml.Token
import PipelineScripts.Yaml.Scalar.Plain
import PipelineScripts.Yaml.Scalar.Quoted
import PipelineScripts.Yaml.Scalar.Block
import PipelineScripts.Yaml.Tag
import PipelineScripts.Yaml.Scanner
import PipelineScripts.Yaml.Event
import PipelineScripts.Text.Alphanumeric
import PipelineScripts.Yaml.Comment
import PipelineScripts.Yaml.Node
import PipelineScripts.Yaml.Tree
import PipelineScripts.Yaml.Reading
import PipelineScripts.Script.ExtractError
import PipelineScripts.Script.AliasMap
import PipelineScripts.Script.Reference
import PipelineScripts.Script.Expansion
import PipelineScripts.Script.Draft
import PipelineScripts.Script.Jobs
import PipelineScripts.Script.Annotated
import PipelineScripts.Script.Decoding
import PipelineScripts.Yaml.Merging
import PipelineScripts.Json.Value
import PipelineScripts.Json.Reader
import PipelineScripts.Json.Printer
import PipelineScripts.Blake3
import PipelineScripts.Check.Report
import PipelineScripts.Check.FindingReader
import PipelineScripts.Rendering.Terminal
import PipelineScripts.Rendering.Machine
import PipelineScripts.Rendering.CodeQuality
import PipelineScripts.Rendering.Sarif
import PipelineScripts.Rendering.Format
import PipelineScripts.Toml.Value
import PipelineScripts.Toml.Text
import PipelineScripts.Toml.Scalar
import PipelineScripts.Toml.Document
import PipelineScripts.Config
import PipelineScripts.Files.Tree
import PipelineScripts.Files.Pattern
import PipelineScripts.Files.Search
import PipelineScripts.Check.Failure
import PipelineScripts.Check.Linter
import PipelineScripts.Check.Extraction
import PipelineScripts.Check.Checking
import PipelineScripts.Check.Writing
import PipelineScripts.CommandLine.Arguments
import PipelineScripts.CommandLine.Program
import PipelineScripts.Text.Instant
import PipelineScripts.Main
import PipelineScripts.Proofs.Depth
import PipelineScripts.Proofs.Expansion
import PipelineScripts.Proofs.Jumps
import PipelineScripts.Proofs.Blocks
import PipelineScripts.Proofs.OneLine
import PipelineScripts.Proofs.Comments
import PipelineScripts.Proofs.HeaderLines
import PipelineScripts.Proofs.TreeShape
import PipelineScripts.Proofs.Relocation
import PipelineScripts.Proofs.Joining
import PipelineScripts.Proofs.MergedAliases
import PipelineScripts.Proofs.CarriedScope
import PipelineScripts.Proofs.CarriedDrafts
import PipelineScripts.Proofs.CarriedAliases
import PipelineScripts.Proofs.Passes
import PipelineScripts.Proofs.MergedTree
import PipelineScripts.Proofs.MergedBlocks
import PipelineScripts.Proofs.BlockNodes
import PipelineScripts.Proofs.DistinctNames
import PipelineScripts.Proofs.FoldedLines
import PipelineScripts.Proofs.BlockBodies
import PipelineScripts.Proofs.EventTokens
import PipelineScripts.Proofs.LiteralLines
import PipelineScripts.Proofs.AliasAgreement
import PipelineScripts.Proofs.Leaves
import PipelineScripts.Proofs.Behind
import PipelineScripts.Proofs.JobSections
import PipelineScripts.Proofs.LeafBlocks
import PipelineScripts.Proofs.PlainSections
import PipelineScripts.Proofs.JobScripts
import PipelineScripts.Proofs.DisabledRules
import PipelineScripts.Proofs.Suppression
import PipelineScripts.Proofs.TreeWrites
import PipelineScripts.Proofs.OutputPlaces
import PipelineScripts.Proofs.Extractions
import PipelineScripts.Proofs.WrittenScripts
import PipelineScripts.Proofs.JointChecks
import PipelineScripts.Proofs.Cycles
import PipelineScripts.Proofs.InsideDocument
import PipelineScripts.Proofs.MergeKeys
import PipelineScripts.Proofs.ReferencedSections
import PipelineScripts.Proofs.InputTokens
import PipelineScripts.Proofs.LeftoverTokens
import PipelineScripts.Proofs.RewrittenLines
import PipelineScripts.Proofs.FittingReplacements
import PipelineScripts.Proofs.TokenSplits
import PipelineScripts.Proofs.OutermostEntries
import PipelineScripts.Proofs.MergedForests
import PipelineScripts.Proofs.QuotedComments
import PipelineScripts.Proofs.KeptBindings
import PipelineScripts.Proofs.FaithfulTrees
import PipelineScripts.Proofs.KeptAliases
import PipelineScripts.Proofs.CombinedDirectives
import PipelineScripts.Proofs.ContinuedLines
import PipelineScripts.Proofs.InsideOutput
import PipelineScripts.Proofs.SarifRegions
import PipelineScripts.Proofs.MachineOutputs
import PipelineScripts.Proofs.TerminalListing
import PipelineScripts.Proofs.Fingerprints
import PipelineScripts.Proofs.Unwrapping
import PipelineScripts.Proofs.NodePlaces
