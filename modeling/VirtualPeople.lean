import VirtualPeople.Command
import VirtualPeople.CommandOption
import VirtualPeople.Distribution
import VirtualPeople.Error
import VirtualPeople.Event
import VirtualPeople.Filter.Basic
import VirtualPeople.Filter.Condition
import VirtualPeople.Filter.Spec
import VirtualPeople.Hash.Blake3
import VirtualPeople.Hash.Fingerprint
import VirtualPeople.Hash.Jump
import VirtualPeople.Json.Basic
import VirtualPeople.Json.Decoder
import VirtualPeople.Json.Number
import VirtualPeople.Json.Reader
import VirtualPeople.Json.Writer
import VirtualPeople.Labeler
import VirtualPeople.Main
import VirtualPeople.Model.Arena
import VirtualPeople.Model.Build
import VirtualPeople.Model.Codec
import VirtualPeople.Model.Flatten
import VirtualPeople.Model.Node
import VirtualPeople.Model.Spec
import VirtualPeople.Multiplicity
import VirtualPeople.Number.Binary
import VirtualPeople.Number.Decimal
import VirtualPeople.Pools
import VirtualPeople.Population
import VirtualPeople.Proofs.Distribution.Moving
import VirtualPeople.Proofs.Distribution.Picking
import VirtualPeople.Proofs.Distribution.Weights
import VirtualPeople.Proofs.Distribution.ZeroWeights
import VirtualPeople.Proofs.Filter.Comparing
import VirtualPeople.Proofs.Filter.Condition
import VirtualPeople.Proofs.Filter.Expansion
import VirtualPeople.Proofs.Filter.Templates
import VirtualPeople.Proofs.Hash.Jump
import VirtualPeople.Proofs.Hash.Keys
import VirtualPeople.Proofs.Json.Canonical
import VirtualPeople.Proofs.Json.Decoding
import VirtualPeople.Proofs.Json.Reading
import VirtualPeople.Proofs.Json.Writing
import VirtualPeople.Proofs.Labeling.Activities
import VirtualPeople.Proofs.Labeling.Alike
import VirtualPeople.Proofs.Labeling.Blame
import VirtualPeople.Proofs.Labeling.Bounded
import VirtualPeople.Proofs.Labeling.Chances
import VirtualPeople.Proofs.Labeling.Internal
import VirtualPeople.Proofs.Labeling.Leaf
import VirtualPeople.Proofs.Labeling.Once
import VirtualPeople.Proofs.Labeling.Stamping
import VirtualPeople.Proofs.Labeling.Steps
import VirtualPeople.Proofs.Model.Asking
import VirtualPeople.Proofs.Model.Building
import VirtualPeople.Proofs.Model.Faults
import VirtualPeople.Proofs.Model.Flattening
import VirtualPeople.Proofs.Model.Inlining
import VirtualPeople.Proofs.Model.ListedTree
import VirtualPeople.Proofs.Model.Listing
import VirtualPeople.Proofs.Model.Parts
import VirtualPeople.Proofs.Model.Positions
import VirtualPeople.Proofs.Model.Quiet
import VirtualPeople.Proofs.Model.Reordering
import VirtualPeople.Proofs.Model.Resolving
import VirtualPeople.Proofs.Model.Saving
import VirtualPeople.Proofs.Multiplicity.Capping
import VirtualPeople.Proofs.Multiplicity.Copies
import VirtualPeople.Proofs.Multiplicity.Counting
import VirtualPeople.Proofs.Multiplicity.Expanding
import VirtualPeople.Proofs.Multiplicity.Raising
import VirtualPeople.Proofs.Multiplicity.Rounding
import VirtualPeople.Proofs.Multiplicity.Seeds
import VirtualPeople.Proofs.Number.Arithmetic
import VirtualPeople.Proofs.Number.Converting
import VirtualPeople.Proofs.Number.Decimal
import VirtualPeople.Proofs.Number.Exact
import VirtualPeople.Proofs.Number.Extended
import VirtualPeople.Proofs.Number.Layout
import VirtualPeople.Proofs.Number.Single
import VirtualPeople.Proofs.Number.Nearest
import VirtualPeople.Proofs.Number.Operations
import VirtualPeople.Proofs.Number.Order
import VirtualPeople.Proofs.Number.Places
import VirtualPeople.Proofs.Number.Value
import VirtualPeople.Proofs.Outcome
import VirtualPeople.Proofs.Pools.Growing
import VirtualPeople.Proofs.Pools.Scanning
import VirtualPeople.Proofs.Record.Codec
import VirtualPeople.Proofs.Record.Commuting
import VirtualPeople.Proofs.Record.Decoding
import VirtualPeople.Proofs.Record.Frame
import VirtualPeople.Proofs.Record.Lenses
import VirtualPeople.Proofs.Record.Merging
import VirtualPeople.Proofs.Record.Naming
import VirtualPeople.Proofs.Text.ByteOrder
import VirtualPeople.Proofs.Text.Numerals
import VirtualPeople.Proofs.Update.Assigning
import VirtualPeople.Proofs.Update.Columnwise
import VirtualPeople.Proofs.Update.InRange
import VirtualPeople.Proofs.Update.Masking
import VirtualPeople.Proofs.Update.Matching
import VirtualPeople.Proofs.Update.PassingThrough
import VirtualPeople.Proofs.Update.Quiet
import VirtualPeople.Proofs.Update.Saving
import VirtualPeople.Proofs.Update.Shredding
import VirtualPeople.Record.Codec
import VirtualPeople.Record.Field
import VirtualPeople.Record.Schema
import VirtualPeople.Record.Scalar
import VirtualPeople.Settings.Basic
import VirtualPeople.Settings.Document
import VirtualPeople.Text.Literal
import VirtualPeople.Update.Columns
import VirtualPeople.Update.ConditionalAssignment
import VirtualPeople.Update.ConditionalMerge
import VirtualPeople.Update.Matrix
import VirtualPeople.Update.Shredder
import VirtualPeople.Proofs.Record.Literals
import VirtualPeople.Proofs.Hash.Loop
import VirtualPeople.Proofs.Json.Lines
import VirtualPeople.Proofs.Labeling.Command
