import PackedLayout.Alignment
import PackedLayout.Arena
import PackedLayout.Diagnostic.Basic
import PackedLayout.Diagnostic.Code
import PackedLayout.Diagnostic.OfLayout
import PackedLayout.Diagnostic.Report
import PackedLayout.Diagnostic.Suggestion
import PackedLayout.Diagnostic.Terminal
import PackedLayout.Engine.Basic
import PackedLayout.Engine.Cache
import PackedLayout.Engine.Draft
import PackedLayout.Engine.TypeLayout
import PackedLayout.Error
import PackedLayout.Item
import PackedLayout.Layout.Basic
import PackedLayout.Layout.Queries
import PackedLayout.Layout.Template
import PackedLayout.Options
import PackedLayout.Proofs.Acceptance
import PackedLayout.Proofs.Accepting
import PackedLayout.Proofs.Accounting
import PackedLayout.Proofs.Agreement
import PackedLayout.Proofs.Anew
import PackedLayout.Proofs.AnyTarget
import PackedLayout.Proofs.ArmOrder
import PackedLayout.Proofs.ArmPlaces
import PackedLayout.Proofs.Ascending
import PackedLayout.Proofs.Caching
import PackedLayout.Proofs.ChainTable
import PackedLayout.Proofs.Collecting
import PackedLayout.Proofs.Completeness
import PackedLayout.Proofs.Cycles
import PackedLayout.Proofs.Derivations
import PackedLayout.Proofs.DraftWords
import PackedLayout.Proofs.Drafting
import PackedLayout.Proofs.EarliestSubset
import PackedLayout.Proofs.Echoing
import PackedLayout.Proofs.Edits
import PackedLayout.Proofs.Elements
import PackedLayout.Proofs.ExactRuns
import PackedLayout.Proofs.Exactness
import PackedLayout.Proofs.Existence
import PackedLayout.Proofs.Filling
import PackedLayout.Proofs.Finishing
import PackedLayout.Proofs.Footprints
import PackedLayout.Proofs.Framing
import PackedLayout.Proofs.Gaps
import PackedLayout.Proofs.Geometry
import PackedLayout.Proofs.Headlines
import PackedLayout.Proofs.InformationSize
import PackedLayout.Proofs.Inlining
import PackedLayout.Proofs.Joining
import PackedLayout.Proofs.LayoutSteps
import PackedLayout.Proofs.Leveling
import PackedLayout.Proofs.LinePlaces
import PackedLayout.Proofs.Lockstep
import PackedLayout.Proofs.MarkedLines
import PackedLayout.Proofs.Measuring
import PackedLayout.Proofs.Merging
import PackedLayout.Proofs.Mirroring
import PackedLayout.Proofs.Needs
import PackedLayout.Proofs.Outcomes
import PackedLayout.Proofs.PackNesting
import PackedLayout.Proofs.Placement
import PackedLayout.Proofs.Reaching
import PackedLayout.Proofs.Realizing
import PackedLayout.Proofs.References
import PackedLayout.Proofs.Related
import PackedLayout.Proofs.Renaming
import PackedLayout.Proofs.Repeating
import PackedLayout.Proofs.Replaying
import PackedLayout.Proofs.ResolvedVariants
import PackedLayout.Proofs.SearchLimit
import PackedLayout.Proofs.Searching
import PackedLayout.Proofs.Shape
import PackedLayout.Proofs.Shuffling
import PackedLayout.Proofs.SimpleVariants
import PackedLayout.Proofs.Snippets
import PackedLayout.Proofs.Stacking
import PackedLayout.Proofs.StorageSize
import PackedLayout.Proofs.StorageWords
import PackedLayout.Proofs.Strictness
import PackedLayout.Proofs.SubsetSums
import PackedLayout.Proofs.Sufficiency
import PackedLayout.Proofs.Suggestions
import PackedLayout.Proofs.Tallies
import PackedLayout.Proofs.Templates
import PackedLayout.Proofs.Termination
import PackedLayout.Proofs.TrailingFields
import PackedLayout.Proofs.Transparency
import PackedLayout.Proofs.Variants
import PackedLayout.Proofs.Walk
import PackedLayout.Proofs.WellFormed
import PackedLayout.Proofs.WordLayouts
import PackedLayout.Proofs.WordSums
import PackedLayout.Proofs.ZeroWaste
import PackedLayout.Proofs.Zones
import PackedLayout.Schema.Basic
import PackedLayout.Schema.Builder
import PackedLayout.Schema.Primitive
import PackedLayout.Source.Lines
import PackedLayout.Source.Span
import PackedLayout.SubsetSum.ChainTable
import PackedLayout.SubsetSum.Choice
import PackedLayout.SubsetSum.Sums
import PackedLayout.SubsetSum.WordSums
import PackedLayout.Text.EditDistance
import PackedLayout.Text.Json
import PackedLayout.UnitCounts
import PackedLayout.Variant.Arm
import PackedLayout.Variant.Boundaries
import PackedLayout.Variant.Resolution
import PackedLayout.Variant.Storage
import PackedLayout.Variant.ZonePlan
import PackedLayout.Variant.ZoneStep
import PackedLayout.Width
