import Errata.Alert.Grouping
import Errata.Alert.Payload
import Errata.Alert.Tally
import Errata.Command.Arguments
import Errata.Command.Program
import Errata.Command.Text
import Errata.Decimal.Reading
import Errata.Decimal.Shortest
import Errata.Edit
import Errata.File.Backups
import Errata.File.Document
import Errata.File.Encoding
import Errata.File.Error
import Errata.File.Tree
import Errata.Fix
import Errata.Instant
import Errata.Json.Reader
import Errata.Json.Record
import Errata.Json.Value
import Errata.Json.Writer
import Errata.Keyed.Slots
import Errata.Keyed.Sorted
import Errata.Linter.Command
import Errata.Linter.Output
import Errata.Main
import Errata.Markup.Block
import Errata.Markup.Inline
import Errata.Markup.Replaceable
import Errata.Markup.Substitution
import Errata.Path.Basic
import Errata.Path.Normal
import Errata.Path.Set
import Errata.Report
import Errata.Rule.Annotation
import Errata.Rule.Basic
import Errata.Rule.Builtin
import Errata.Rule.ContentType
import Errata.Rule.Entity
import Errata.Rule.Registry
import Errata.Run.Configuration
import Errata.Run.Plan
import Errata.Run.Pool
import Errata.Run.Session
import Errata.Run.Settings
import Errata.Run.Work
import Errata.Text.Basic
import Errata.Text.Boundary
import Errata.Text.Lines
import Errata.Text.Printable
import Errata.Text.Quoted
import Errata.Text.Utf8
import Errata.Text.WordCharacter
import Errata.Toml.Reader
import Errata.Toml.Scalar
import Errata.Toml.Strings
import Errata.Toml.Table
import Errata.Toml.Value
import Errata.Violation
import Errata.Wire.Fix
import Errata.Wire.Report
import Errata.Proofs.Keyed.Slots
import Errata.Proofs.Keyed.Sorted
import Errata.Proofs.Text.Lines
import Errata.Proofs.Markup.Comments
import Errata.Proofs.Edit.Blocks
import Errata.Proofs.Rule.EntityGuard
import Errata.Proofs.Rule.Declarations
import Errata.Proofs.Rule.RunningOrder
import Errata.Proofs.File.Tree
import Errata.Proofs.Path.Names
import Errata.Proofs.File.Backups
import Errata.Proofs.Alert.Grouping
import Errata.Proofs.Run.Stages
import Errata.Proofs.File.Document
import Errata.Proofs.Run.Schedule
import Errata.Proofs.Run.Journal
import Errata.Proofs.Run.Units
import Errata.Proofs.Run.Plans
import Errata.Proofs.Run.Accounting
import Errata.Proofs.Run.Selection
import Errata.Proofs.Run.Restoration
import Errata.Proofs.Edit.Untouched
import Errata.Proofs.Edit.Insertion
import Errata.Proofs.Rule.DeclarationPlace
import Errata.Proofs.Run.Interruption
import Errata.Proofs.Run.Independence
import Errata.Proofs.Run.Reuse
import Errata.Proofs.Rule.DependencyOrder
import Errata.Proofs.Text.ByteOrder
import Errata.Proofs.Text.Trim
import Errata.Proofs.Json.Members
import Errata.Proofs.Alert.Payload
import Errata.Proofs.Rule.Annotations
import Errata.Proofs.Run.DryRun
import Errata.Proofs.Run.PartialResults
import Errata.Proofs.Edit.Endings
import Errata.Proofs.Rule.Endings
import Errata.Proofs.Run.Listing
import Errata.Proofs.Run.Endings
import Errata.Proofs.Run.Failures
import Errata.Proofs.Instant
import Errata.Proofs.Json.Numerals
import Errata.Proofs.Json.Records
import Errata.Proofs.Wire.Planned
import Errata.Proofs.Edit.Overlaps
import Errata.Proofs.Rule.EntityRewrite
import Errata.Proofs.Rule.EntityProse
import Errata.Proofs.Markup.Blocks
import Errata.Proofs.Markup.CodeSpans
import Errata.Proofs.Markup.Passthroughs
import Errata.Proofs.Markup.OpenBlocks
import Errata.Proofs.Markup.Substitutions
import Errata.Proofs.Text.Pieces
import Errata.Proofs.Markup.BlockGuard
import Errata.Proofs.Rule.Redeclaration
import Errata.Proofs.Path.Normal
import Errata.Proofs.Alert.Spellings
import Errata.Proofs.Rule.InsertionPlace
import Errata.Proofs.Rule.SecondRun
import Errata.Proofs.Rule.SingleAnnotation
import Errata.Proofs.FirstMet
import Errata.Proofs.Rule.Registrations
import Errata.Proofs.Alert.Tally
import Errata.Proofs.Text.Utf8
import Errata.Proofs.File.Encoding
import Errata.Proofs.File.Cache
import Errata.Proofs.File.Overlap
import Errata.Proofs.Edit.Nearest
