import FeatureDepot.Main
import FeatureDepot.Proofs.Batch
import FeatureDepot.Proofs.Version
import FeatureDepot.Proofs.Version.Deployment
import FeatureDepot.Proofs.Digest.Pieces
import FeatureDepot.Proofs.Closure.Search
import FeatureDepot.Proofs.Closure.Distance
import FeatureDepot.Proofs.Selection.BreadthFirst
import FeatureDepot.Proofs.Selection.Extension
import FeatureDepot.Proofs.Selection.Reachability
import FeatureDepot.Proofs.Loading.Order
import FeatureDepot.Proofs.Location.Grammar
import FeatureDepot.Proofs.Location.Spelling
import FeatureDepot.Proofs.Location.Translation
import FeatureDepot.Proofs.Location.Display
import FeatureDepot.Proofs.Loading.Distinct
import FeatureDepot.Proofs.Loading.Locations
import FeatureDepot.Proofs.Run.Report
import FeatureDepot.Proofs.Run.Steps
import FeatureDepot.Proofs.FileSystem.Walk
import FeatureDepot.Proofs.FileSystem.Changes
import FeatureDepot.Proofs.FileSystem.Stored
import FeatureDepot.Proofs.FileSystem.Replacing
import FeatureDepot.Proofs.Depot.Checksums
import FeatureDepot.Proofs.Depot.Leftovers
import FeatureDepot.Proofs.Depot.Materialize
import FeatureDepot.Proofs.Depot.Interruption
import FeatureDepot.Proofs.Layout.Coordinates
import FeatureDepot.Proofs.Layout.Nested
import FeatureDepot.Proofs.Layout.Sharing
import FeatureDepot.Proofs.Layout.Containment
import FeatureDepot.Proofs.Depot.Lookup
import FeatureDepot.Proofs.Markup.Escape
import FeatureDepot.Proofs.Markup.Growth
import FeatureDepot.Proofs.Markup.Prose
import FeatureDepot.Proofs.Markup.Tags
import FeatureDepot.Proofs.Markup.Written
import FeatureDepot.Proofs.Markup.Pieces
import FeatureDepot.Proofs.Markup.Parts
import FeatureDepot.Proofs.Markup.Reading
import FeatureDepot.Proofs.Metadata.RoundTrip
import FeatureDepot.Proofs.Metadata.Additions
import FeatureDepot.Proofs.Metadata.Documents
import FeatureDepot.Proofs.Metadata.Histories
import FeatureDepot.Proofs.Depot.Documents
import FeatureDepot.Proofs.Depot.Absence
import FeatureDepot.Proofs.Depot.Unreadable
import FeatureDepot.Proofs.FileSystem.Paving
import FeatureDepot.Proofs.FileSystem.Lineage
import FeatureDepot.Proofs.FileSystem.Opening
import FeatureDepot.Proofs.FileSystem.Arrival
import FeatureDepot.Proofs.Layout.Destinations
import FeatureDepot.Proofs.Depot.Effects
import FeatureDepot.Proofs.Depot.Order
import FeatureDepot.Proofs.FileSystem.Writes
import FeatureDepot.Proofs.FileSystem.Repeating
import FeatureDepot.Proofs.Metadata.Revisions
import FeatureDepot.Proofs.Layout.Surroundings
import FeatureDepot.Proofs.Layout.Flat
import FeatureDepot.Proofs.Depot.Redoing
import FeatureDepot.Proofs.Depot.Rewriting
import FeatureDepot.Proofs.Run.Writing
import FeatureDepot.Proofs.Run.Twice
import FeatureDepot.Proofs.Markup.Rendered
import FeatureDepot.Proofs.Markup.Fields
import FeatureDepot.Proofs.Descriptor.Documents
import FeatureDepot.Proofs.Descriptor.Renderings
