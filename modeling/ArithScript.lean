import ArithScript.Command.Arguments
import ArithScript.Command.Files
import ArithScript.Command.Run
import ArithScript.Decimal.Numeral
import ArithScript.Decimal.Shortest
import ArithScript.Document.Form
import ArithScript.Document.Nesting
import ArithScript.Document.Ranges
import ArithScript.Document.Value
import ArithScript.Double
import ArithScript.Expr
import ArithScript.Generate
import ArithScript.Json.Decoder
import ArithScript.Json.Error
import ArithScript.Json.Printer
import ArithScript.Json.Reader
import ArithScript.Json.Scan
import ArithScript.Json.Skip
import ArithScript.Json.Value
import ArithScript.LineIndex
import ArithScript.Lowering.Action
import ArithScript.Lowering.Expr
import ArithScript.Lowering.Module
import ArithScript.Main
import ArithScript.Module
import ArithScript.Operator
import ArithScript.Options
import ArithScript.Position
import ArithScript.Region
import ArithScript.Scope
import ArithScript.Snapshot
import ArithScript.SourceMap.Base64
import ArithScript.SourceMap.Builder
import ArithScript.SourceMap.Mapping
import ArithScript.SourceMap.Payload
import ArithScript.SourceMap.Synthesis
import ArithScript.SourceMap.Vlq
import ArithScript.Text.Characters
import ArithScript.Text.Terminal
import ArithScript.Text.Units
import ArithScript.Trace.Program
import ArithScript.Trace.Tree
import ArithScript.Trace.Writer
import ArithScript.Proofs.Fragment
import ArithScript.Proofs.Rendering
import ArithScript.Proofs.Provenance
import ArithScript.Proofs.MappingOrder
import ArithScript.Proofs.MappingText
import ArithScript.Proofs.BuilderDecoding
import ArithScript.Proofs.JsonScan
import ArithScript.Proofs.JsonText
import ArithScript.Proofs.JsonDecoding
import ArithScript.Proofs.DocumentForm
import ArithScript.Proofs.BracketBytes
import ArithScript.Proofs.DocumentNesting
import ArithScript.Proofs.DocumentText
import ArithScript.Proofs.DoubleRounding
import ArithScript.Proofs.ShortestDecimal
import ArithScript.Proofs.NumeralReading
import ArithScript.Proofs.ScriptTokens
import ArithScript.Proofs.ScriptGrammar
import ArithScript.Proofs.LoweredTokens
import ArithScript.Proofs.LoweredTerms
import ArithScript.Proofs.ScriptSemantics
import ArithScript.Proofs.Meaning
import ArithScript.Proofs.MeaningPreserved
import ArithScript.Proofs.WriterRuns
import ArithScript.Proofs.LinePositions
import ArithScript.Proofs.WriterPositions
import ArithScript.Proofs.NodeNumbering
import ArithScript.Proofs.TraceTree
import ArithScript.Proofs.FragmentConditions
import ArithScript.Proofs.FilledFragments
import ArithScript.Proofs.MappingPlaces
import ArithScript.Proofs.Annotation
import ArithScript.Proofs.WriterExtension
import ArithScript.Proofs.Restoration
import ArithScript.Proofs.LaterStatements
import ArithScript.Proofs.Regions
import ArithScript.Proofs.RegionErasure
import ArithScript.Proofs.TracedRegions
import ArithScript.Proofs.MappingOrigins
import ArithScript.Proofs.Parenthesization
import ArithScript.Proofs.NestingLimit
import ArithScript.Proofs.CollapsedNodes
import ArithScript.Proofs.TraceVisit
import ArithScript.Proofs.CommandRuns
import ArithScript.Proofs.FileTree
import ArithScript.Proofs.FlagArguments
import ArithScript.Proofs.CallSites
import ArithScript.Proofs.NameResolution
import ArithScript.Proofs.LineOffsets
import ArithScript.Proofs.JsonGrammar
import ArithScript.Proofs.Outcomes
import ArithScript.Proofs.JsonReading
import ArithScript.Proofs.JsonTokens
import ArithScript.Proofs.CountedBrackets
import ArithScript.Proofs.DecodingDepth
import ArithScript.Proofs.DocumentDepth
import ArithScript.Proofs.RangeFilling
import ArithScript.Proofs.SourceNesting
import ArithScript.Proofs.TokenEnds
import ArithScript.Proofs.TreeReading
import ArithScript.Proofs.MemberOrder
import ArithScript.Proofs.DecodingOrder
import ArithScript.Proofs.RecordOrder
import ArithScript.Proofs.VariantOrder
import ArithScript.Proofs.DocumentOrder
import ArithScript.Proofs.VlqWords
import ArithScript.Proofs.BuilderLists
import ArithScript.Proofs.BuilderColumns
import ArithScript.Proofs.NearestDouble
import ArithScript.Proofs.ShortestNumerals
