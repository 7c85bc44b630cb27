import ScriptLoom.Action
import ScriptLoom.Bracket
import ScriptLoom.Build
import ScriptLoom.Catalog.Basic
import ScriptLoom.Catalog.Bundled
import ScriptLoom.Catalog.Json
import ScriptLoom.Catalog.Mining
import ScriptLoom.Closure
import ScriptLoom.CommandLine
import ScriptLoom.CompilerMessage
import ScriptLoom.Composition
import ScriptLoom.Config
import ScriptLoom.Diagnostic
import ScriptLoom.Failure
import ScriptLoom.FileTree
import ScriptLoom.FormatCall
import ScriptLoom.Host
import ScriptLoom.Identifier
import ScriptLoom.Json.Basic
import ScriptLoom.Json.Reader
import ScriptLoom.Keyword
import ScriptLoom.Layout
import ScriptLoom.Location
import ScriptLoom.LogFilter
import ScriptLoom.Path
import ScriptLoom.Problem
import ScriptLoom.Program
import ScriptLoom.Record
import ScriptLoom.Scan
import ScriptLoom.Script
import ScriptLoom.Session
import ScriptLoom.Signature
import ScriptLoom.SourceUnit
import ScriptLoom.Terminal
import ScriptLoom.Text.Basic
import ScriptLoom.Text.Blank
import ScriptLoom.Text.Letter
import ScriptLoom.Text.Line
import ScriptLoom.Text.Lowercase
import ScriptLoom.Text.Plain
import ScriptLoom.Text.Utf8
import ScriptLoom.Verification
import ScriptLoom.Workspace
import ScriptLoom.Proofs.MentionClosure
import ScriptLoom.Proofs.Nesting
import ScriptLoom.Proofs.Lines
import ScriptLoom.Proofs.DiagnosticSets
import ScriptLoom.Proofs.FormatCall
import ScriptLoom.Proofs.FormatExpansion
import ScriptLoom.Proofs.Decomposition
import ScriptLoom.Proofs.Acceptance
import ScriptLoom.Proofs.Braces
import ScriptLoom.Proofs.ItemBraces
import ScriptLoom.Proofs.ScriptBraces
import ScriptLoom.Proofs.ItemLines
import ScriptLoom.Proofs.PlainLines
import ScriptLoom.Proofs.BraceBalance
import ScriptLoom.Proofs.CallMarks
import ScriptLoom.Proofs.SurvivingCalls
import ScriptLoom.Proofs.Places
import ScriptLoom.Proofs.CommentRemoval
import ScriptLoom.Proofs.MethodRecords
import ScriptLoom.Proofs.LineAccount
import ScriptLoom.Proofs.LineComments
import ScriptLoom.Proofs.EntryPoint
import ScriptLoom.Proofs.Relocation
import ScriptLoom.Proofs.LexicalGrammar
import ScriptLoom.Proofs.NameRuns
import ScriptLoom.Proofs.Overriding
import ScriptLoom.Proofs.ProblemLines
import ScriptLoom.Proofs.StructLines
import ScriptLoom.Proofs.FilePlaces
import ScriptLoom.Proofs.Actions
import ScriptLoom.Proofs.BuildStages
import ScriptLoom.Proofs.ScriptSurvival
import ScriptLoom.Proofs.ToolCalls
import ScriptLoom.Proofs.LibraryComments
import ScriptLoom.Proofs.ExpansionParts
import ScriptLoom.Proofs.FunctionLines
import ScriptLoom.Proofs.JoinedLines
import ScriptLoom.Proofs.OpenFunctions
import ScriptLoom.Proofs.BuildSteps
import ScriptLoom.Proofs.LibraryOrder
import ScriptLoom.Proofs.BuildCleanUp
import ScriptLoom.Proofs.LineLayout
import ScriptLoom.Proofs.Boundaries
import ScriptLoom.Proofs.ByteSearches
import ScriptLoom.Proofs.SpanLookup
import ScriptLoom.Proofs.KeywordSearch
import ScriptLoom.Proofs.Cuts
import ScriptLoom.Proofs.ExpansionLoop
import ScriptLoom.Proofs.Placeholders
import ScriptLoom.Proofs.ArgumentNesting
import ScriptLoom.Proofs.SessionArtifacts
import ScriptLoom.Proofs.BraceMatching
import ScriptLoom.Proofs.StructRanges
import ScriptLoom.Proofs.ReservedAssignments
import ScriptLoom.Proofs.FieldCuts
import ScriptLoom.Proofs.GlobalFields
import ScriptLoom.Proofs.CompilerOutput
import ScriptLoom.Proofs.LinePositions
import ScriptLoom.Proofs.LineScans
import ScriptLoom.Proofs.IdentifierRuns
import ScriptLoom.Proofs.LibraryBlocks
