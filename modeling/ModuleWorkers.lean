import ModuleWorkers.Bundle.Bundler
import ModuleWorkers.Bundle.Error
import ModuleWorkers.Bundle.Graph
import ModuleWorkers.Bundle.Loading
import ModuleWorkers.Bundle.Options
import ModuleWorkers.Bundle.Order
import ModuleWorkers.Bundle.Output
import ModuleWorkers.Bundle.Package
import ModuleWorkers.Bundle.Resolution
import ModuleWorkers.Bundle.Specifier
import ModuleWorkers.Edits.Basic
import ModuleWorkers.Edits.Provenance
import ModuleWorkers.Edits.Span
import ModuleWorkers.Encoding.Base64
import ModuleWorkers.Encoding.DataUrl
import ModuleWorkers.FileSystem
import ModuleWorkers.Hash.Xxh3
import ModuleWorkers.Json.Diagnosis
import ModuleWorkers.Json.Fault
import ModuleWorkers.Json.Number
import ModuleWorkers.Json.Parser
import ModuleWorkers.Json.Quoted
import ModuleWorkers.Json.Relaxed
import ModuleWorkers.Json.Token
import ModuleWorkers.Json.Value
import ModuleWorkers.Main
import ModuleWorkers.Path.File
import ModuleWorkers.Path.Segments
import ModuleWorkers.Path.Url
import ModuleWorkers.Plugin.Build
import ModuleWorkers.Plugin.Client
import ModuleWorkers.Plugin.Options
import ModuleWorkers.Plugin.Request
import ModuleWorkers.Plugin.Response
import ModuleWorkers.Plugin.Scheduling
import ModuleWorkers.Plugin.State
import ModuleWorkers.Plugin.VirtualFiles
import ModuleWorkers.Proofs.Bundle.Candidates
import ModuleWorkers.Proofs.Bundle.Closed
import ModuleWorkers.Proofs.Bundle.Endless
import ModuleWorkers.Proofs.Bundle.InputMaps
import ModuleWorkers.Proofs.Bundle.InputSources
import ModuleWorkers.Proofs.Bundle.Loading
import ModuleWorkers.Proofs.Bundle.Naming
import ModuleWorkers.Proofs.Bundle.Needed
import ModuleWorkers.Proofs.Bundle.Order
import ModuleWorkers.Proofs.Bundle.Packaged
import ModuleWorkers.Proofs.Bundle.Postorder
import ModuleWorkers.Proofs.Bundle.Reloading
import ModuleWorkers.Proofs.Bundle.Watched
import ModuleWorkers.Proofs.Directories
import ModuleWorkers.Proofs.Edits.Kept
import ModuleWorkers.Proofs.Edits.Order
import ModuleWorkers.Proofs.Edits.Provenance
import ModuleWorkers.Proofs.Edits.Reordered
import ModuleWorkers.Proofs.Edits.Reverted
import ModuleWorkers.Proofs.Json.Reading
import ModuleWorkers.Proofs.Path.Address
import ModuleWorkers.Proofs.Path.Collapse
import ModuleWorkers.Proofs.Path.NormalForm
import ModuleWorkers.Proofs.Path.Order
import ModuleWorkers.Proofs.Path.Reference
import ModuleWorkers.Proofs.Plugin.Accounts
import ModuleWorkers.Proofs.Plugin.Answered
import ModuleWorkers.Proofs.Plugin.Builds
import ModuleWorkers.Proofs.Plugin.BundleFiles
import ModuleWorkers.Proofs.Plugin.BundleMap
import ModuleWorkers.Proofs.Plugin.Changes
import ModuleWorkers.Proofs.Plugin.Flights
import ModuleWorkers.Proofs.Plugin.Failures
import ModuleWorkers.Proofs.Plugin.Freshness
import ModuleWorkers.Proofs.Plugin.KeptMaps
import ModuleWorkers.Proofs.Plugin.Locks
import ModuleWorkers.Proofs.Plugin.Partitions
import ModuleWorkers.Proofs.Plugin.Registrations
import ModuleWorkers.Proofs.Plugin.Response
import ModuleWorkers.Proofs.Plugin.ScriptNames
import ModuleWorkers.Proofs.Plugin.ServedMap
import ModuleWorkers.Proofs.Plugin.ServedSources
import ModuleWorkers.Proofs.Plugin.Session
import ModuleWorkers.Proofs.Plugin.SingleFlight
import ModuleWorkers.Proofs.Plugin.Turns
import ModuleWorkers.Proofs.Plugin.Watching
import ModuleWorkers.Proofs.Server.Bodies
import ModuleWorkers.Proofs.Server.Files
import ModuleWorkers.Proofs.SourceMap.Codec
import ModuleWorkers.Proofs.SourceMap.Composition
import ModuleWorkers.Proofs.SourceMap.Grammar
import ModuleWorkers.Proofs.SourceMap.Json
import ModuleWorkers.Proofs.SourceMap.Lines
import ModuleWorkers.Proofs.SourceMap.Reference
import ModuleWorkers.Proofs.SourceMap.Relocated
import ModuleWorkers.Proofs.SourceMap.RoundTrip
import ModuleWorkers.Proofs.SourceMap.Segments
import ModuleWorkers.Proofs.SourceMap.Sorted
import ModuleWorkers.Proofs.Text.Bytes
import ModuleWorkers.Proofs.Text.Utf8
import ModuleWorkers.Proofs.Watch.Counts
import ModuleWorkers.Proofs.Watch.Requests
import ModuleWorkers.Proofs.Worker.Accepted
import ModuleWorkers.Proofs.Worker.Blanked
import ModuleWorkers.Proofs.Worker.Construction
import ModuleWorkers.Proofs.Worker.Division
import ModuleWorkers.Proofs.Worker.EntryFile
import ModuleWorkers.Proofs.Worker.FixedPoint
import ModuleWorkers.Proofs.Worker.Nested
import ModuleWorkers.Proofs.Worker.OptionsLiteral
import ModuleWorkers.Proofs.Worker.Ordered
import ModuleWorkers.Proofs.Worker.Registered
import ModuleWorkers.Proofs.Worker.Registry
import ModuleWorkers.Proofs.Worker.Specifier
import ModuleWorkers.Proofs.Worker.Terminators
import ModuleWorkers.Script.CommonJs
import ModuleWorkers.Script.Conversion
import ModuleWorkers.Script.Dependency
import ModuleWorkers.Script.Fault
import ModuleWorkers.Script.Grouping
import ModuleWorkers.Script.Helper
import ModuleWorkers.Script.Output
import ModuleWorkers.Script.Parser.Basic
import ModuleWorkers.Script.Parser.Expression
import ModuleWorkers.Script.Parser.Module
import ModuleWorkers.Script.Parser.Pattern
import ModuleWorkers.Script.Parser.Statement
import ModuleWorkers.Script.Printer
import ModuleWorkers.Script.Provenance
import ModuleWorkers.Script.Quoted
import ModuleWorkers.Script.Renaming
import ModuleWorkers.Script.Scope
import ModuleWorkers.Script.Substitution
import ModuleWorkers.Script.Syntax
import ModuleWorkers.Script.Token
import ModuleWorkers.Script.Traversal
import ModuleWorkers.Server.Arguments
import ModuleWorkers.Server.BodyCache
import ModuleWorkers.Server.Config
import ModuleWorkers.Server.Message
import ModuleWorkers.Server.State
import ModuleWorkers.SourceMap.Basic
import ModuleWorkers.SourceMap.Compose
import ModuleWorkers.SourceMap.Error
import ModuleWorkers.SourceMap.Json
import ModuleWorkers.SourceMap.Line
import ModuleWorkers.SourceMap.Mappings
import ModuleWorkers.SourceMap.Reference
import ModuleWorkers.SourceMap.Vlq
import ModuleWorkers.Text.CharClass
import ModuleWorkers.Text.Cursor
import ModuleWorkers.Text.Search
import ModuleWorkers.Text.Units
import ModuleWorkers.Text.Utf8
import ModuleWorkers.Watch.Host
import ModuleWorkers.Watch.Shared
import ModuleWorkers.Worker.Canonical
import ModuleWorkers.Worker.Construction
import ModuleWorkers.Worker.Masking
import ModuleWorkers.Worker.Options
import ModuleWorkers.Worker.Registry
import ModuleWorkers.Proofs.Worker.ByteLiterals
import ModuleWorkers.Proofs.Worker.ByteMasking
