import PluginHost.Candidate
import PluginHost.Catalog
import PluginHost.CommandLine
import PluginHost.Config
import PluginHost.Config.Error
import PluginHost.Config.KeyPlace
import PluginHost.Config.Loading
import PluginHost.Config.Options
import PluginHost.Config.Printing
import PluginHost.Config.Reading
import PluginHost.Config.Validation
import PluginHost.Config.Value
import PluginHost.Config.Variable
import PluginHost.Decimal
import PluginHost.Decimal.Numeral
import PluginHost.Discovery
import PluginHost.Error
import PluginHost.Event
import PluginHost.FileSystem
import PluginHost.FileSystem.Directories
import PluginHost.FileSystem.Edit
import PluginHost.Glob
import PluginHost.Glob.Matching
import PluginHost.Install
import PluginHost.Json
import PluginHost.Json.Number
import PluginHost.Json.Record
import PluginHost.Json.Token
import PluginHost.Json.Tree
import PluginHost.Leb128
import PluginHost.Listing
import PluginHost.Main
import PluginHost.Manifest
import PluginHost.Metadata
import PluginHost.Metadata.Draft
import PluginHost.Metadata.Reading
import PluginHost.MetadataSource
import PluginHost.Path
import PluginHost.PathPattern
import PluginHost.Program
import PluginHost.Proofs.Candidate.Best
import PluginHost.Proofs.Candidate.Making
import PluginHost.Proofs.Config.Validity
import PluginHost.Proofs.Discovery.Attribution
import PluginHost.Proofs.Discovery.Calls
import PluginHost.Proofs.Discovery.Content
import PluginHost.Proofs.Discovery.DeclaredPaths
import PluginHost.Proofs.Discovery.Order
import PluginHost.Proofs.Discovery.Reads
import PluginHost.Proofs.Discovery.Visits
import PluginHost.Proofs.FileSystem.Contents
import PluginHost.Proofs.FileSystem.Following
import PluginHost.Proofs.FileSystem.LinkFree
import PluginHost.Proofs.FileSystem.Rearranged
import PluginHost.Proofs.Install.Content
import PluginHost.Proofs.Install.Origins
import PluginHost.Proofs.Lists
import PluginHost.Proofs.Path.Segments
import PluginHost.Proofs.PathPattern.Grounded
import PluginHost.Proofs.PathPattern.Meaning
import PluginHost.Proofs.PathPattern.Places
import PluginHost.Proofs.PathPattern.Plain
import PluginHost.Proofs.PathPattern.Resolving
import PluginHost.Proofs.Registry.Capabilities
import PluginHost.Proofs.Registry.Changes
import PluginHost.Proofs.Registry.Consistency
import PluginHost.Proofs.Registry.Histories
import PluginHost.Proofs.Registry.Installing
import PluginHost.Proofs.Results
import PluginHost.Proofs.Version.Order
import PluginHost.Proofs.Walk.Closure
import PluginHost.Proofs.Walk.Itineraries
import PluginHost.Proofs.Walk.Rearranged
import PluginHost.Proofs.Walk.Rules
import PluginHost.Proofs.Walk.Runs
import PluginHost.Proofs.Walk.Visits
import PluginHost.Registry
import PluginHost.Report
import PluginHost.Runtime
import PluginHost.Scan
import PluginHost.Text.Blank
import PluginHost.Text.Escape
import PluginHost.Text.Lines
import PluginHost.Text.Quoted
import PluginHost.Text.Reader
import PluginHost.Text.Search
import PluginHost.Text.Similarity
import PluginHost.Text.Unprintable
import PluginHost.Text.Utf8
import PluginHost.Toml
import PluginHost.Toml.Reading
import PluginHost.Toml.Text
import PluginHost.TypeGraph
import PluginHost.TypeName
import PluginHost.Version
import PluginHost.Version.Reading
import PluginHost.Walk
import PluginHost.WasmModule
import PluginHost.Proofs.Install.Success
import PluginHost.Proofs.Install.HostVersion
import PluginHost.Proofs.Discovery.HostVersion
import PluginHost.Proofs.Install.ModuleOrder
import PluginHost.Proofs.Install.Unrelated
import PluginHost.Proofs.Leb128.Spelling
import PluginHost.Proofs.WasmModule.Framing
import PluginHost.Proofs.Json.Strings
import PluginHost.Proofs.Json.Tokens
import PluginHost.Proofs.Json.Words
import PluginHost.Proofs.Json.Spacing
import PluginHost.Proofs.Json.Structure
import PluginHost.Proofs.Json.Trees
import PluginHost.Proofs.Json.Records
import PluginHost.Proofs.Json.Changes
import PluginHost.Proofs.Json.Lenient
import PluginHost.Proofs.Metadata.RoundTrip
import PluginHost.Proofs.Metadata.Compatibility
import PluginHost.Proofs.Config.Settings
import PluginHost.Proofs.Config.Formats
import PluginHost.Proofs.Config.Layers
import PluginHost.Proofs.Config.Schema
import PluginHost.Proofs.Config.Layering
import PluginHost.Proofs.Toml.Sections
import PluginHost.Proofs.Config.Printing
import PluginHost.Proofs.Config.Notation
import PluginHost.Proofs.Config.Agreement
import PluginHost.Proofs.Lists.Occurrence
import PluginHost.Proofs.TypeGraph.BreadthFirst
import PluginHost.Proofs.Discovery.Reuse
import PluginHost.Proofs.Text.Trimming
import PluginHost.Proofs.Text.Lines
import PluginHost.Proofs.Manifest.Grammar
import PluginHost.Proofs.Manifest.Writing
import PluginHost.Proofs.Registry.Nearest
import PluginHost.Proofs.Lists.Repetition
import PluginHost.Proofs.Registry.Enabling
import PluginHost.Proofs.PathPattern.Composing
import PluginHost.Proofs.PathPattern.StepsUp
import PluginHost.Proofs.FileSystem.Preorder
import PluginHost.Proofs.PathPattern.Padding
import PluginHost.Proofs.PathPattern.DoubleStar
import PluginHost.Proofs.Leb128.Overflow
import PluginHost.Proofs.Registry.Properties
import PluginHost.Proofs.Install.Scanning
import PluginHost.Proofs.PathPattern.WrittenOut
import PluginHost.Proofs.Candidate.Precedence
import PluginHost.Proofs.Version.Lenient
import PluginHost.Proofs.Config.KeyPlaces
import PluginHost.Proofs.Config.UnknownKeys
