import ArenaVariations.Bulk.Discovery
import ArenaVariations.Expansion.Application
import ArenaVariations.Files.Workspace
import ArenaVariations.Layout.Block
import ArenaVariations.Main
import ArenaVariations.Node.Equality
import ArenaVariations.Output
import ArenaVariations.Proofs.Expansion.Enumeration
import ArenaVariations.Proofs.Expansion.Sampling
import ArenaVariations.Proofs.Generation.Settings
import ArenaVariations.Proofs.Resolution.Order
import ArenaVariations.Proofs.Resolution.Guard
import ArenaVariations.Proofs.Session.Independence
import ArenaVariations.Report.Count
import ArenaVariations.Report.Table
import ArenaVariations.Session
import ArenaVariations.Template.Reading
import ArenaVariations.Text.Basic
import ArenaVariations.Text.Width
import ArenaVariations.Proofs.Decimal.Double
import ArenaVariations.Proofs.Decimal.Nearest
import ArenaVariations.Proofs.Decimal.ReadBack
import ArenaVariations.Proofs.Layout.Dash
import ArenaVariations.Proofs.Layout.Document
import ArenaVariations.Proofs.Layout.Legible
import ArenaVariations.Proofs.Layout.Tidy
import ArenaVariations.Proofs.Yaml.Text
import ArenaVariations.Proofs.Bulk.Discovery
import ArenaVariations.Proofs.Bulk.Exclusion
import ArenaVariations.Proofs.Bulk.Folders
import ArenaVariations.Proofs.Bulk.Order
import ArenaVariations.Proofs.Files.Places
import ArenaVariations.Proofs.Files.WellFormed
import ArenaVariations.Proofs.Files.Agreement
import ArenaVariations.Proofs.Command.Steps
import ArenaVariations.Proofs.Output.Name
import ArenaVariations.Proofs.Generation.Collected
import ArenaVariations.Proofs.Generation.Split
import ArenaVariations.Proofs.Generation.Static
import ArenaVariations.Proofs.Output.LabelIndex
import ArenaVariations.Proofs.Command.Results
import ArenaVariations.Proofs.Command.Write
import ArenaVariations.Proofs.Command.Failure
import ArenaVariations.Proofs.Command.Delivery
import ArenaVariations.Proofs.Command.Frame
import ArenaVariations.Proofs.Command.Templates
import ArenaVariations.Proofs.Command.Repeat
import ArenaVariations.Proofs.Command.Verdict
import ArenaVariations.Proofs.Command.Isolation
import ArenaVariations.Proofs.Template.PlainView
import ArenaVariations.Proofs.Template.Keys
import ArenaVariations.Proofs.Layout.ReadBack
import ArenaVariations.Proofs.Layout.TagView
import ArenaVariations.Proofs.Resolution.Frame
import ArenaVariations.Proofs.Resolution.Matching
import ArenaVariations.Proofs.Resolution.Paths
import ArenaVariations.Proofs.Resolution.Values
import ArenaVariations.Proofs.Generation.Range
