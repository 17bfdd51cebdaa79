import Polish.Arith
import Polish.Bytes
import Polish.Check
import Polish.Command
import Polish.Compile
import Polish.Dangling
import Polish.Diagnostic
import Polish.Diagnostic.Decoration
import Polish.Diagnostic.Render
import Polish.Double
import Polish.Double.Reader
import Polish.Double.Shortest
import Polish.Eval
import Polish.Event
import Polish.ExitStatus
import Polish.Fault
import Polish.FileTree
import Polish.Flags
import Polish.Instant
import Polish.Invocation
import Polish.Json
import Polish.Json.Reader
import Polish.Json.Writer
import Polish.Log
import Polish.Machine
import Polish.Machine.Instr
import Polish.Machine.Listing
import Polish.Main
import Polish.Manual
import Polish.NameMap
import Polish.Operator
import Polish.Proofs.Grammar
import Polish.Proofs.Alarms
import Polish.Proofs.Atomicity
import Polish.Proofs.Course
import Polish.Proofs.Decoding
import Polish.Proofs.Kinds
import Polish.Proofs.Lines
import Polish.Proofs.Listing
import Polish.Proofs.Places
import Polish.Proofs.Result
import Polish.Proofs.SavedCode
import Polish.Proofs.Simulation
import Polish.Proofs.Source
import Polish.Proofs.StaticCheck
import Polish.Proofs.Utf8
import Polish.Proofs.Words
import Polish.Scenario
import Polish.Session
import Polish.Session.History
import Polish.Settings
import Polish.Settings.Load
import Polish.Span
import Polish.Store
import Polish.Store.Dump
import Polish.Text.Base64
import Polish.Text.Blank
import Polish.Text.Decimal
import Polish.Text.Grid
import Polish.Text.Line
import Polish.Text.LowerCase
import Polish.Text.Printable
import Polish.Text.Quoted
import Polish.Text.Ranges
import Polish.Text.Rune
import Polish.Text.Width
import Polish.Timestamp
import Polish.Token
import Polish.Token.Scanner
import Polish.Toml.Document
import Polish.Toml.Rule
import Polish.Toml.Table
import Polish.Trace
import Polish.Trace.Summary
import Polish.Tree
import Polish.Tree.Cursor
import Polish.Tree.Dump
import Polish.Tree.Infix
import Polish.Tree.Parser
import Polish.Workbench
import Polish.Workbench.Cache
import Polish.Yaml.Cursor
import Polish.Yaml.Datum
import Polish.Yaml.Decode
import Polish.Yaml.Encoding
import Polish.Yaml.Node
import Polish.Yaml.Scalar
import Polish.Yaml.Tag
import Polish.Yaml.Token
import Polish.Yaml.Value
import Polish.Proofs.Malformed
import Polish.Proofs.Slots
import Polish.Proofs.Effect
import Polish.Proofs.Influence
import Polish.Proofs.Conversation
import Polish.Proofs.Status
import Polish.Proofs.Prefixes
import Polish.Proofs.Caching
import Polish.Proofs.Extents
import Polish.Proofs.JsonText
import Polish.Proofs.TraceText
import Polish.Proofs.Sizes
import Polish.Proofs.TraceSummary
import Polish.Proofs.Root
import Polish.Proofs.Wrapping
import Polish.Proofs.FailingNode
import Polish.Proofs.Findings
import Polish.Proofs.StackEffect
import Polish.Proofs.Stopping
import Polish.Proofs.Balance
import Polish.Proofs.Infix
import Polish.Proofs.Layout
import Polish.Proofs.Fields
import Polish.Proofs.Reassembly
import Polish.Proofs.Filler
import Polish.Proofs.Relocation
import Polish.Proofs.Highlights
import Polish.Proofs.Skipping
import Polish.Proofs.Rules
import Polish.Proofs.QuotedText
import Polish.Proofs.TomlValues
import Polish.Proofs.TomlText
import Polish.Proofs.SettingsText
import Polish.Proofs.Bindings
import Polish.Proofs.Passing
import Polish.Proofs.Cutting
import Polish.Proofs.Bounds
