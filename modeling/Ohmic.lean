import Ohmic.Circuit.Connection
import Ohmic.Circuit.Fault
import Ohmic.Circuit.Flat
import Ohmic.Circuit.Flat.Order
import Ohmic.Circuit.Flatten
import Ohmic.Circuit.Machine
import Ohmic.Circuit.Postfix
import Ohmic.Circuit.Tree
import Ohmic.Decimal.Notation
import Ohmic.Decimal.Power
import Ohmic.Decimal.Ratio
import Ohmic.Decimal.Shortest
import Ohmic.Failure
import Ohmic.Number.Binary64
import Ohmic.Number.Hypotenuse
import Ohmic.Number.Impedance
import Ohmic.Number.Phasor
import Ohmic.Number.Scalar
import Ohmic.Parts.Catalog
import Ohmic.Parts.CatalogError
import Ohmic.Parts.Part
import Ohmic.Parts.PreferredSeries
import Ohmic.Proofs.Alike
import Ohmic.Proofs.Circuit.CanonicalKey
import Ohmic.Proofs.Circuit.ChildOrder
import Ohmic.Proofs.Circuit.Embedding
import Ohmic.Proofs.Circuit.Evaluation
import Ohmic.Proofs.Circuit.FirstFault
import Ohmic.Proofs.Circuit.FlatLeaves
import Ohmic.Proofs.Circuit.FlatOrder
import Ohmic.Proofs.Circuit.Folding
import Ohmic.Proofs.Circuit.Growth
import Ohmic.Proofs.Circuit.Legibility
import Ohmic.Proofs.Circuit.Mirror
import Ohmic.Proofs.Circuit.NormalForm
import Ohmic.Proofs.Circuit.ParallelErrors
import Ohmic.Proofs.Circuit.ParallelRange
import Ohmic.Proofs.Circuit.PhasorForms
import Ohmic.Proofs.Circuit.Reading
import Ohmic.Proofs.Circuit.Regrouping
import Ohmic.Proofs.Circuit.Reordering
import Ohmic.Proofs.Circuit.RoundTrip
import Ohmic.Proofs.Circuit.Sorting
import Ohmic.Proofs.Circuit.Trees
import Ohmic.Proofs.Decimal.Exponents
import Ohmic.Proofs.Decimal.Powers
import Ohmic.Proofs.Number.Comparison
import Ohmic.Proofs.Number.Double
import Ohmic.Proofs.Number.DoubleLaws
import Ohmic.Proofs.Number.Errors
import Ohmic.Proofs.Number.Exact
import Ohmic.Proofs.Number.Length
import Ohmic.Proofs.Number.Nearest
import Ohmic.Proofs.Number.Operations
import Ohmic.Proofs.Number.ProductOverSum
import Ohmic.Proofs.Number.RealLaws
import Ohmic.Proofs.Number.Rounding
import Ohmic.Proofs.Number.TotalOrder
import Ohmic.Proofs.Number.Value
import Ohmic.Proofs.Parts.Capacitors
import Ohmic.Proofs.Parts.Decades
import Ohmic.Proofs.Parts.Lookup
import Ohmic.Proofs.Parts.Order
import Ohmic.Proofs.Parts.Rounded
import Ohmic.Proofs.Search.Assignments
import Ohmic.Proofs.Search.Band
import Ohmic.Proofs.Search.Bench
import Ohmic.Proofs.Search.Bounds
import Ohmic.Proofs.Search.Calls
import Ohmic.Proofs.Search.Closest
import Ohmic.Proofs.Search.Coherence
import Ohmic.Proofs.Search.Completeness
import Ohmic.Proofs.Search.Construction
import Ohmic.Proofs.Search.Course
import Ohmic.Proofs.Search.Coverage
import Ohmic.Proofs.Search.Descent
import Ohmic.Proofs.Search.Deviations
import Ohmic.Proofs.Search.Displayed
import Ohmic.Proofs.Search.Domains
import Ohmic.Proofs.Search.Enumeration
import Ohmic.Proofs.Search.Interrupted
import Ohmic.Proofs.Search.Items
import Ohmic.Proofs.Search.Keys
import Ohmic.Proofs.Search.Layouts
import Ohmic.Proofs.Search.Levels
import Ohmic.Proofs.Search.Limit
import Ohmic.Proofs.Search.Nearness
import Ohmic.Proofs.Search.Networks
import Ohmic.Proofs.Search.Phasors
import Ohmic.Proofs.Search.Progress
import Ohmic.Proofs.Search.Pruning
import Ohmic.Proofs.Search.Ranking
import Ohmic.Proofs.Search.Representatives
import Ohmic.Proofs.Search.Safety
import Ohmic.Proofs.Search.Shapes
import Ohmic.Proofs.Search.Slots
import Ohmic.Proofs.Search.Steps
import Ohmic.Proofs.Search.Tallies
import Ohmic.Proofs.Search.Tolerances
import Ohmic.Proofs.Search.Trials
import Ohmic.Proofs.Search.Twins
import Ohmic.Proofs.Search.Workers
import Ohmic.Search.Bench
import Ohmic.Search.Bounds
import Ohmic.Search.Budget
import Ohmic.Search.Construction
import Ohmic.Search.Descent
import Ohmic.Search.Finding
import Ohmic.Search.Layout
import Ohmic.Search.Report
import Ohmic.Search.Run
import Ohmic.Search.Settings
import Ohmic.Search.Shape
import Ohmic.Search.Tolerance
import Ohmic.Search.Workers
import Ohmic.StableSort
import Ohmic.Text.Basic
import Ohmic.Text.Blank
