import AnnotatedJson.Cache.Basic
import AnnotatedJson.Cache.History
import AnnotatedJson.Document.Basic
import AnnotatedJson.Document.Store
import AnnotatedJson.Error
import AnnotatedJson.Host.Cursor
import AnnotatedJson.Host.Dialect
import AnnotatedJson.Host.Element
import AnnotatedJson.Host.Expression
import AnnotatedJson.Host.Function
import AnnotatedJson.Host.Grammar
import AnnotatedJson.Host.Node
import AnnotatedJson.Host.Parse
import AnnotatedJson.Host.Statement
import AnnotatedJson.Host.Token
import AnnotatedJson.Host.Types
import AnnotatedJson.Json.Basic
import AnnotatedJson.Json.Pointer
import AnnotatedJson.Json.Printer
import AnnotatedJson.Json.Reader
import AnnotatedJson.Json.Segment
import AnnotatedJson.Literal.Correction
import AnnotatedJson.Literal.Node
import AnnotatedJson.Literal.Parse
import AnnotatedJson.Literal.Path
import AnnotatedJson.Literal.Problem
import AnnotatedJson.Literal.Repair
import AnnotatedJson.Literal.Report
import AnnotatedJson.Literal.Scan
import AnnotatedJson.Literal.Token
import AnnotatedJson.Main
import AnnotatedJson.Mode.Basic
import AnnotatedJson.Mode.Literal
import AnnotatedJson.Mode.Registry
import AnnotatedJson.Number.Binary64
import AnnotatedJson.Number.Shortest
import AnnotatedJson.Pattern.Basic
import AnnotatedJson.Pattern.Reader
import AnnotatedJson.Preview
import AnnotatedJson.Protocol.Basic
import AnnotatedJson.Protocol.Color
import AnnotatedJson.Protocol.Completion
import AnnotatedJson.Protocol.Diagnostic
import AnnotatedJson.Protocol.Hover
import AnnotatedJson.Protocol.Location
import AnnotatedJson.Protocol.Reader
import AnnotatedJson.Protocol.Signature
import AnnotatedJson.Region.Basic
import AnnotatedJson.Region.Extract
import AnnotatedJson.Region.Index
import AnnotatedJson.Region.Label
import AnnotatedJson.Region.Report
import AnnotatedJson.Schema.Assist
import AnnotatedJson.Schema.Describe
import AnnotatedJson.Schema.Fetch
import AnnotatedJson.Schema.Memo
import AnnotatedJson.Schema.Navigate
import AnnotatedJson.Server.Basic
import AnnotatedJson.Server.Capabilities
import AnnotatedJson.Server.Handle
import AnnotatedJson.Server.Request
import AnnotatedJson.Server.Wire
import AnnotatedJson.Service
import AnnotatedJson.Settings.Basic
import AnnotatedJson.Settings.Files
import AnnotatedJson.Settings.Reader
import AnnotatedJson.Text.Basic
import AnnotatedJson.Text.Blank
import AnnotatedJson.Text.Digit
import AnnotatedJson.Text.LineIndex
import AnnotatedJson.Text.Mask
import AnnotatedJson.Text.Word
import AnnotatedJson.Text.WordClass
import AnnotatedJson.Toml.Reader
import AnnotatedJson.Toml.Scalar
import AnnotatedJson.Toml.Table
import AnnotatedJson.Uri.Basic
import AnnotatedJson.Uri.Host
import AnnotatedJson.Uri.Parse
import AnnotatedJson.Uri.Percent
import AnnotatedJson.Workspace
import AnnotatedJson.Proofs.Boundary
import AnnotatedJson.Proofs.Scan
import AnnotatedJson.Proofs.Cursor
import AnnotatedJson.Proofs.Reading
import AnnotatedJson.Proofs.Record
import AnnotatedJson.Proofs.Numeral
import AnnotatedJson.Proofs.Acceptance
import AnnotatedJson.Proofs.Placement
import AnnotatedJson.Proofs.Tree
import AnnotatedJson.Proofs.Shift
import AnnotatedJson.Proofs.Masking
import AnnotatedJson.Proofs.Content
import AnnotatedJson.Proofs.Shorthand
import AnnotatedJson.Proofs.Repair
import AnnotatedJson.Proofs.HostTree
import AnnotatedJson.Proofs.Arrangement
import AnnotatedJson.Proofs.CacheEntries
import AnnotatedJson.Proofs.Gating
import AnnotatedJson.Proofs.History
import AnnotatedJson.Proofs.Interleaving
import AnnotatedJson.Proofs.Staleness
import AnnotatedJson.Proofs.Recency
import AnnotatedJson.Proofs.Loading
import AnnotatedJson.Proofs.LoadedOnce
import AnnotatedJson.Proofs.Places
import AnnotatedJson.Proofs.Navigation
import AnnotatedJson.Proofs.Answers
import AnnotatedJson.Proofs.Positions
import AnnotatedJson.Proofs.PreviewSession
import AnnotatedJson.Proofs.Printing
import AnnotatedJson.Proofs.RepeatedKeys
import AnnotatedJson.Proofs.Parts
import AnnotatedJson.Proofs.Owners
import AnnotatedJson.Proofs.Deepest
import AnnotatedJson.Proofs.Paths
import AnnotatedJson.Proofs.Narrowing
import AnnotatedJson.Proofs.Views
import AnnotatedJson.Proofs.Origins
import AnnotatedJson.Proofs.Rounding
import AnnotatedJson.Proofs.Magnitude
import AnnotatedJson.Proofs.Sameness
import AnnotatedJson.Proofs.Matching
import AnnotatedJson.Proofs.Elements
import AnnotatedJson.Proofs.Indices
import AnnotatedJson.Proofs.Escapes
import AnnotatedJson.Proofs.StrictReading
import AnnotatedJson.Proofs.Constants
import AnnotatedJson.Proofs.SchemaProperty
import AnnotatedJson.Proofs.Filling
import AnnotatedJson.Proofs.Distinct
import AnnotatedJson.Proofs.FanOut
import AnnotatedJson.Proofs.KeySites
import AnnotatedJson.Proofs.Proposals
import AnnotatedJson.Proofs.Overflow
import AnnotatedJson.Proofs.ShortestDecimal
import AnnotatedJson.Proofs.PrintedDoubles
import AnnotatedJson.Proofs.RootReference
import AnnotatedJson.Proofs.SharedLocations
import AnnotatedJson.Proofs.SettingsForms
import AnnotatedJson.Proofs.Counting
import AnnotatedJson.Proofs.Tiling
import AnnotatedJson.Proofs.Progress
import AnnotatedJson.Proofs.Alignment
