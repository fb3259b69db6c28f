import PluginContract.Cause
import PluginContract.CommandLine.Arguments
import PluginContract.CommandLine.Run
import PluginContract.Contract.Command
import PluginContract.Contract.Events
import PluginContract.Contract.Extraction
import PluginContract.Contract.References
import PluginContract.Decimal.Binary64
import PluginContract.Decimal.Shortest
import PluginContract.Entries
import PluginContract.Entrypoint.Callsite
import PluginContract.Entrypoint.Discovery
import PluginContract.Entrypoint.Selection
import PluginContract.Error
import PluginContract.Files.Path
import PluginContract.Files.Tree
import PluginContract.Files.Uri
import PluginContract.Json.Display
import PluginContract.Json.Number
import PluginContract.Json.Printer
import PluginContract.Json.Reader
import PluginContract.Json.Value
import PluginContract.Loading.Diagnostics
import PluginContract.Loading.Failure
import PluginContract.Loading.Payload
import PluginContract.Loading.Runtime
import PluginContract.Loading.Script
import PluginContract.Loading.Strategy
import PluginContract.Main
import PluginContract.Manifest.Assembly
import PluginContract.Manifest.BotEvents
import PluginContract.Manifest.Commands
import PluginContract.Manifest.File
import PluginContract.Manifest.Listeners
import PluginContract.Manifest.Schema
import PluginContract.Resolution.Cache
import PluginContract.Resolution.PathAliases
import PluginContract.Resolution.Project
import PluginContract.Resolution.Reference
import PluginContract.Resolution.TypeAlias
import PluginContract.Script.Bracket
import PluginContract.Script.Expression
import PluginContract.Script.Literal
import PluginContract.Script.ObjectLiteral
import PluginContract.Script.Region
import PluginContract.Script.Role
import PluginContract.Settings
import PluginContract.Source.Exports
import PluginContract.Source.Imports
import PluginContract.Source.Module
import PluginContract.Source.Specifier
import PluginContract.Source.TypeAliases
import PluginContract.Terminal.Annotation
import PluginContract.Terminal.Console
import PluginContract.Terminal.Encoding
import PluginContract.Terminal.Markup
import PluginContract.Text.Alphanumeric
import PluginContract.Text.Character
import PluginContract.Text.DecimalDigit
import PluginContract.Text.Pieces
import PluginContract.Text.Ranges
import PluginContract.Text.Search
import PluginContract.Text.Unprintable
import PluginContract.Text.Utf8
import PluginContract.Proofs.Entries
import PluginContract.Proofs.Manifest.Union
import PluginContract.Proofs.Manifest.FieldSteps
import PluginContract.Proofs.Manifest.Headings
import PluginContract.Proofs.Manifest.Reassembly
import PluginContract.Proofs.Manifest.Relaxing
import PluginContract.Proofs.Manifest.Accounting
import PluginContract.Proofs.Script.Scan
import PluginContract.Proofs.Script.CommentBlanking
import PluginContract.Proofs.Script.Views
import PluginContract.Proofs.Contract.EventReduction
import PluginContract.Proofs.Json.Layout
import PluginContract.Proofs.Json.Limits
import PluginContract.Proofs.Text.Lines
import PluginContract.Proofs.Json.RoundTrip
import PluginContract.Proofs.Json.Shortest
import PluginContract.Proofs.Json.LineEnds
import PluginContract.Proofs.Loading.PayloadRoundTrip
import PluginContract.Proofs.Files.Tree
import PluginContract.Proofs.Manifest.Writing
import PluginContract.Proofs.CommandLine.Update
import PluginContract.Proofs.Resolution.AliasTables
import PluginContract.Proofs.Resolution.AliasLookups
import PluginContract.Proofs.Contract.PlanLookups
import PluginContract.Proofs.Contract.Extraction
import PluginContract.Proofs.Contract.Exclusions
import PluginContract.Proofs.Contract.Stages
import PluginContract.Proofs.Resolution.Snapshot
import PluginContract.Proofs.Resolution.Walks
import PluginContract.Proofs.Resolution.Bound
import PluginContract.Proofs.Resolution.Sessions
import PluginContract.Proofs.Files.Places
import PluginContract.Proofs.Text.Utf8
import PluginContract.Proofs.Manifest.RoundTrip
import PluginContract.Proofs.Entrypoint.Selection
import PluginContract.Proofs.Script.Plain
import PluginContract.Proofs.Text.Search
import PluginContract.Proofs.Source.Declarations
import PluginContract.Proofs.Source.SpecifierLists
import PluginContract.Proofs.Source.Lines
import PluginContract.Proofs.Source.Matches
import PluginContract.Proofs.Source.Tables
import PluginContract.Proofs.Source.Statements
import PluginContract.Proofs.Source.RoundTrip
import PluginContract.Proofs.Script.Excerpts
import PluginContract.Proofs.CommandLine.Packages
import PluginContract.Proofs.Entrypoint.Callsites
import PluginContract.Proofs.Entrypoint.Lookback
import PluginContract.Proofs.Script.Shown
import PluginContract.Proofs.Script.Terminated
import PluginContract.Proofs.Script.Balanced
import PluginContract.Proofs.Entrypoint.PrintedCalls
import PluginContract.Proofs.Contract.CommentedTypes
import PluginContract.Proofs.Script.ClearRanges
import PluginContract.Proofs.Script.FirstParts
import PluginContract.Proofs.Script.ObjectLiterals
import PluginContract.Proofs.Source.CommentedClauses
import PluginContract.Proofs.Source.SpecifierAgreement
import PluginContract.Proofs.Script.WrittenTexts
import PluginContract.Proofs.Contract.WrittenEvents
import PluginContract.Proofs.Source.WrittenAliases
import PluginContract.Proofs.Source.AliasRoundTrip
import PluginContract.Proofs.Contract.NameChains
import PluginContract.Proofs.Script.Assertions
import PluginContract.Proofs.Script.Peeling
import PluginContract.Proofs.Resolution.AssertedReferences
import PluginContract.Proofs.Script.Settling
import PluginContract.Proofs.Resolution.AliasOrder
import PluginContract.Proofs.Text.Spacing
import PluginContract.Proofs.Contract.StaticTypes
import PluginContract.Proofs.Json.Spelling
import PluginContract.Proofs.Json.Atoms
import PluginContract.Proofs.Json.Documents
import PluginContract.Proofs.Resolution.TrailingCommas
import PluginContract.Proofs.Resolution.TolerantReading
import PluginContract.Proofs.Resolution.PlainConfigurations
import PluginContract.Proofs.Manifest.Listeners
import PluginContract.Proofs.Manifest.Revision
import PluginContract.Proofs.Manifest.UnionConversion
import PluginContract.Proofs.Manifest.ShortIntegers
import PluginContract.Proofs.Resolution.PlainPaths
import PluginContract.Proofs.Contract.FileIdentity
import PluginContract.Proofs.Loading.ProcessOutput
import PluginContract.Proofs.Contract.ReferenceValues
import PluginContract.Proofs.Noting
import PluginContract.Proofs.Loading.PickedExports
import PluginContract.Proofs.Loading.Fallback
import PluginContract.Proofs.Files.Names
import PluginContract.Proofs.Entrypoint.SourceFiles
import PluginContract.Proofs.Script.BracketWords
import PluginContract.Proofs.Script.LiteralLoop
import PluginContract.Proofs.Script.Templates
import PluginContract.Proofs.Script.JoinedParts
import PluginContract.Proofs.Script.Passing
import PluginContract.Proofs.Script.Runs
import PluginContract.Proofs.Script.Sweeps
import PluginContract.Proofs.Source.Lookups
import PluginContract.Proofs.Script.RegexEnds
import PluginContract.Proofs.Terminal.Annotations
