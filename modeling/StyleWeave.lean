import StyleWeave.Cache
import StyleWeave.CommandLine.Arguments
import StyleWeave.CommandLine.Interface
import StyleWeave.CommandLine.Report
import StyleWeave.CommandLine.Run
import StyleWeave.Config.Datum
import StyleWeave.Config.Json
import StyleWeave.Config.Toml.Document
import StyleWeave.Config.Toml.Moment
import StyleWeave.Config.Toml.Scalar
import StyleWeave.Config.Toml.Table
import StyleWeave.Dialect
import StyleWeave.Dictionary
import StyleWeave.Disk.Basic
import StyleWeave.Disk.Host
import StyleWeave.Disk.Walk
import StyleWeave.Failure
import StyleWeave.Frontier
import StyleWeave.Host.Basic
import StyleWeave.Host.Memory
import StyleWeave.Host.Scan
import StyleWeave.Job
import StyleWeave.Main
import StyleWeave.Options.Basic
import StyleWeave.Options.Decode
import StyleWeave.Options.Profile
import StyleWeave.ParseError
import StyleWeave.Path.Basic
import StyleWeave.Path.Name
import StyleWeave.Path.Normal
import StyleWeave.Path.Set
import StyleWeave.Project
import StyleWeave.Proofs.Cache
import StyleWeave.Proofs.CommandLine.Acts
import StyleWeave.Proofs.CommandLine.Render
import StyleWeave.Proofs.Dialect
import StyleWeave.Proofs.Disk.Candidates
import StyleWeave.Proofs.Disk.Walk
import StyleWeave.Proofs.Disk.Writing
import StyleWeave.Proofs.Frontier.Conservation
import StyleWeave.Proofs.Frontier.Coverage
import StyleWeave.Proofs.Frontier.Dependencies
import StyleWeave.Proofs.Frontier.Drain
import StyleWeave.Proofs.Frontier.Exploration
import StyleWeave.Proofs.Frontier.Graph
import StyleWeave.Proofs.Frontier.Inquiries
import StyleWeave.Proofs.Frontier.Layers
import StyleWeave.Proofs.Frontier.Ledger
import StyleWeave.Proofs.Frontier.Queue
import StyleWeave.Proofs.Frontier.Service
import StyleWeave.Proofs.Frontier.Resolve
import StyleWeave.Proofs.Frontier.Session
import StyleWeave.Proofs.Frontier.View
import StyleWeave.Proofs.Host.Constant
import StyleWeave.Proofs.Host.Finite
import StyleWeave.Proofs.Host.Memory
import StyleWeave.Proofs.Host.Names
import StyleWeave.Proofs.Host.Search
import StyleWeave.Proofs.Job.Bridge
import StyleWeave.Proofs.Job.Completeness
import StyleWeave.Proofs.Job.Dependencies
import StyleWeave.Proofs.Job.Ending
import StyleWeave.Proofs.Job.Guard
import StyleWeave.Proofs.Job.Inlining
import StyleWeave.Proofs.Job.Limits
import StyleWeave.Proofs.Job.Prefetch
import StyleWeave.Proofs.Job.Progress
import StyleWeave.Proofs.Job.Resolved
import StyleWeave.Proofs.Job.Rounds
import StyleWeave.Proofs.Job.Scanning
import StyleWeave.Proofs.Job.Settled
import StyleWeave.Proofs.Job.Sharing
import StyleWeave.Proofs.Job.Speculation
import StyleWeave.Proofs.Job.Spent
import StyleWeave.Proofs.Job.Verdict
import StyleWeave.Proofs.Job.View
import StyleWeave.Proofs.Options.Coherence
import StyleWeave.Proofs.Path.Along
import StyleWeave.Proofs.Path.Completion
import StyleWeave.Proofs.Path.Extension
import StyleWeave.Proofs.Path.Join
import StyleWeave.Proofs.Path.Normal
import StyleWeave.Proofs.Path.Order
import StyleWeave.Proofs.Path.Parent
import StyleWeave.Proofs.Path.Set
import StyleWeave.Proofs.Render.Again
import StyleWeave.Proofs.Render.Coupling
import StyleWeave.Proofs.Render.Cover
import StyleWeave.Proofs.Render.Cycles
import StyleWeave.Proofs.Render.Depth
import StyleWeave.Proofs.Render.Derivation
import StyleWeave.Proofs.Render.Entry
import StyleWeave.Proofs.Render.Finder
import StyleWeave.Proofs.Render.Inclusion
import StyleWeave.Proofs.Render.Indentation
import StyleWeave.Proofs.Render.Indenting
import StyleWeave.Proofs.Render.Legible
import StyleWeave.Proofs.Render.LineEnds
import StyleWeave.Proofs.Render.Listening
import StyleWeave.Proofs.Render.Lockstep
import StyleWeave.Proofs.Render.Lookup
import StyleWeave.Proofs.Render.Once
import StyleWeave.Proofs.Render.Origins
import StyleWeave.Proofs.Render.Parsing
import StyleWeave.Proofs.Render.Passages
import StyleWeave.Proofs.Render.Plan
import StyleWeave.Proofs.Render.Questions
import StyleWeave.Proofs.Render.Recording
import StyleWeave.Proofs.Render.Reported
import StyleWeave.Proofs.Render.Rereading
import StyleWeave.Proofs.Render.Rules
import StyleWeave.Proofs.Render.Simulation
import StyleWeave.Proofs.Render.Slices
import StyleWeave.Proofs.Render.SourceMap
import StyleWeave.Proofs.Render.Splicing
import StyleWeave.Proofs.Render.Steps
import StyleWeave.Proofs.Render.Substitution
import StyleWeave.Proofs.Render.Trace
import StyleWeave.Proofs.Render.Upkeep
import StyleWeave.Proofs.Render.Watch
import StyleWeave.Proofs.Render.Weaving
import StyleWeave.Proofs.Render.Writes
import StyleWeave.Proofs.Scan
import StyleWeave.Proofs.Scope
import StyleWeave.Proofs.Syntax.Blocks
import StyleWeave.Proofs.Syntax.Brackets
import StyleWeave.Proofs.Syntax.Comments
import StyleWeave.Proofs.Syntax.Continuation
import StyleWeave.Proofs.Syntax.Cursor
import StyleWeave.Proofs.Syntax.Descent
import StyleWeave.Proofs.Syntax.Exchange
import StyleWeave.Proofs.Syntax.Flow
import StyleWeave.Proofs.Syntax.Folding
import StyleWeave.Proofs.Syntax.Following
import StyleWeave.Proofs.Syntax.Lists
import StyleWeave.Proofs.Syntax.Locality
import StyleWeave.Proofs.Syntax.Moving
import StyleWeave.Proofs.Syntax.Nesting
import StyleWeave.Proofs.Syntax.Offside
import StyleWeave.Proofs.Syntax.OneLine
import StyleWeave.Proofs.Syntax.Operands
import StyleWeave.Proofs.Syntax.Paths
import StyleWeave.Proofs.Syntax.Pieces
import StyleWeave.Proofs.Syntax.Printing
import StyleWeave.Proofs.Syntax.Progress
import StyleWeave.Proofs.Syntax.RoundTrip
import StyleWeave.Proofs.Syntax.Spans
import StyleWeave.Proofs.Syntax.Statements
import StyleWeave.Proofs.Text.LineEnds
import StyleWeave.Proofs.Text.Lines
import StyleWeave.Proofs.Text.Offset
import StyleWeave.Proofs.Text.Rows
import StyleWeave.Proofs.Text.Solid
import StyleWeave.Proofs.Token.Abreast
import StyleWeave.Proofs.Token.Blanking
import StyleWeave.Proofs.Token.Brackets
import StyleWeave.Proofs.Token.Breaking
import StyleWeave.Proofs.Token.Comments
import StyleWeave.Proofs.Token.Extent
import StyleWeave.Proofs.Token.Kinds
import StyleWeave.Proofs.Token.Laying
import StyleWeave.Proofs.Token.Lexing
import StyleWeave.Proofs.Token.LineEnds
import StyleWeave.Proofs.Token.Lookahead
import StyleWeave.Proofs.Token.Nesting
import StyleWeave.Proofs.Token.OneLine
import StyleWeave.Proofs.Token.Places
import StyleWeave.Proofs.Token.Refusal
import StyleWeave.Proofs.Token.Rows
import StyleWeave.Proofs.Token.Scanning
import StyleWeave.Proofs.Token.Spelling
import StyleWeave.Proofs.Token.Standing
import StyleWeave.Proofs.Token.Steps
import StyleWeave.Proofs.Token.Tiling
import StyleWeave.Reference
import StyleWeave.Render.Basic
import StyleWeave.Render.Inline
import StyleWeave.Render.LineMap
import StyleWeave.Render.Lookup
import StyleWeave.Render.Script
import StyleWeave.Scan
import StyleWeave.Scope
import StyleWeave.Syntax.Expression
import StyleWeave.Syntax.Parser
import StyleWeave.Syntax.Tree
import StyleWeave.SystemError
import StyleWeave.Text.Affix
import StyleWeave.Text.Blank
import StyleWeave.Text.Lines
import StyleWeave.Text.Offset
import StyleWeave.Text.Quoted
import StyleWeave.Text.Visible
import StyleWeave.Token.Basic
import StyleWeave.Token.Layout
import StyleWeave.Token.Lexer
