import DiffAlgebra.Catalog
import DiffAlgebra.Codec.Bytes
import DiffAlgebra.Codec.Decode
import DiffAlgebra.Codec.Encode
import DiffAlgebra.Codec.Layout
import DiffAlgebra.Coercion
import DiffAlgebra.Contract.Form
import DiffAlgebra.Contract.Schema
import DiffAlgebra.Contract.Validation
import DiffAlgebra.Contract.Violation
import DiffAlgebra.Datum.Basic
import DiffAlgebra.Datum.Order
import DiffAlgebra.Datum.Sequence
import DiffAlgebra.Datum.Text
import DiffAlgebra.Diff.Addition
import DiffAlgebra.Diff.Basic
import DiffAlgebra.Diff.Order
import DiffAlgebra.DiffType.Basic
import DiffAlgebra.DiffType.Class
import DiffAlgebra.DiffType.Name
import DiffAlgebra.DiffType.Reference
import DiffAlgebra.Fault
import DiffAlgebra.Integer.Arithmetic
import DiffAlgebra.Integer.Kind
import DiffAlgebra.Laws.Check
import DiffAlgebra.Laws.Config
import DiffAlgebra.Laws.Record
import DiffAlgebra.Laws.Verify
import DiffAlgebra.Number.Binary64
import DiffAlgebra.Number.Shortest
import DiffAlgebra.Object.Basic
import DiffAlgebra.Object.Copy
import DiffAlgebra.Object.Fresh
import DiffAlgebra.Object.Hash
import DiffAlgebra.Object.Multiply
import DiffAlgebra.Object.Update
import DiffAlgebra.Proofs.Addition.Checked
import DiffAlgebra.Proofs.Addition.Columns
import DiffAlgebra.Proofs.Addition.Components
import DiffAlgebra.Proofs.Addition.Discarding
import DiffAlgebra.Proofs.Addition.Exactness
import DiffAlgebra.Proofs.Addition.Grouping
import DiffAlgebra.Proofs.Addition.Leaves
import DiffAlgebra.Proofs.Addition.Merge
import DiffAlgebra.Proofs.Addition.Padding
import DiffAlgebra.Proofs.Addition.Pool
import DiffAlgebra.Proofs.Addition.Retraction
import DiffAlgebra.Proofs.Addition.Runs
import DiffAlgebra.Proofs.Addition.Spellings
import DiffAlgebra.Proofs.Addition.Symmetry
import DiffAlgebra.Proofs.Addition.Totals
import DiffAlgebra.Proofs.Codec.Bounds
import DiffAlgebra.Proofs.Codec.Bytes
import DiffAlgebra.Proofs.Codec.Canonical
import DiffAlgebra.Proofs.Codec.Delimiting
import DiffAlgebra.Proofs.Codec.Layouts
import DiffAlgebra.Proofs.Codec.Locality
import DiffAlgebra.Proofs.Codec.Reading
import DiffAlgebra.Proofs.Codec.RoundTrip
import DiffAlgebra.Proofs.Codec.Traversals
import DiffAlgebra.Proofs.Codec.Wire
import DiffAlgebra.Proofs.Contract.Coercion
import DiffAlgebra.Proofs.Contract.Forms
import DiffAlgebra.Proofs.Contract.Locations
import DiffAlgebra.Proofs.Contract.RoundTrip
import DiffAlgebra.Proofs.Contract.Validity
import DiffAlgebra.Proofs.Failure
import DiffAlgebra.Proofs.Integer.Residues
import DiffAlgebra.Proofs.Laws.BuiltIn
import DiffAlgebra.Proofs.Laws.Checks
import DiffAlgebra.Proofs.Laws.Composition
import DiffAlgebra.Proofs.Laws.Conformance
import DiffAlgebra.Proofs.Laws.Passing
import DiffAlgebra.Proofs.Laws.Purity
import DiffAlgebra.Proofs.Laws.Repetition
import DiffAlgebra.Proofs.Laws.Reporting
import DiffAlgebra.Proofs.Laws.Undisturbed
import DiffAlgebra.Proofs.Order.Comparison
import DiffAlgebra.Proofs.Order.Lexicographic
import DiffAlgebra.Proofs.Shape
import DiffAlgebra.Proofs.Sharing.Aliasing
import DiffAlgebra.Proofs.Sharing.Bare
import DiffAlgebra.Proofs.Sharing.Changes
import DiffAlgebra.Proofs.Sharing.Coherence
import DiffAlgebra.Proofs.Sharing.Copies
import DiffAlgebra.Proofs.Sharing.Data
import DiffAlgebra.Proofs.Sharing.Drafts
import DiffAlgebra.Proofs.Sharing.Expressions
import DiffAlgebra.Proofs.Sharing.Frames
import DiffAlgebra.Proofs.Sharing.InPlace
import DiffAlgebra.Proofs.Sharing.Labels
import DiffAlgebra.Proofs.Sharing.Laws
import DiffAlgebra.Proofs.Sharing.Mutables
import DiffAlgebra.Proofs.Sharing.Nodes
import DiffAlgebra.Proofs.Sharing.Operations
import DiffAlgebra.Proofs.Sharing.Outcomes
import DiffAlgebra.Proofs.Sharing.Ownership
import DiffAlgebra.Proofs.Sharing.PlacedOutcomes
import DiffAlgebra.Proofs.Sharing.Placement
import DiffAlgebra.Proofs.Sharing.Positions
import DiffAlgebra.Proofs.Sharing.Products
import DiffAlgebra.Proofs.Sharing.Progress
import DiffAlgebra.Proofs.Sharing.Reachable
import DiffAlgebra.Proofs.Sharing.Rebuilding
import DiffAlgebra.Proofs.Sharing.Results
import DiffAlgebra.Proofs.Sharing.Updates
import DiffAlgebra.Proofs.Text.Identification
import DiffAlgebra.Proofs.Text.Messages
import DiffAlgebra.Proofs.Text.Names
import DiffAlgebra.Proofs.Text.Rendering
import DiffAlgebra.Proofs.Text.Words
import DiffAlgebra.Proofs.Typing.Arithmetic
import DiffAlgebra.Proofs.Typing.Capabilities
import DiffAlgebra.Proofs.Typing.Multiplication
import DiffAlgebra.Proofs.Typing.Objects
import DiffAlgebra.Proofs.Typing.Operations
import DiffAlgebra.Proofs.Typing.Reachable
import DiffAlgebra.Proofs.Typing.Safety
import DiffAlgebra.Proofs.Typing.Values
import DiffAlgebra.Proofs.Values
import DiffAlgebra.Session.Access
import DiffAlgebra.Session.Arithmetic
import DiffAlgebra.Session.Description
import DiffAlgebra.Session.Exchange
import DiffAlgebra.Session.Expr
import DiffAlgebra.Session.Outcome
import DiffAlgebra.Session.Run
import DiffAlgebra.Specimens
import DiffAlgebra.Text.Numeral
import DiffAlgebra.Text.Printable
import DiffAlgebra.Text.Quoted
