import Statechart.Chart.Basic
import Statechart.Chart.Grammar
import Statechart.Chart.Render
import Statechart.Chart.View
import Statechart.Chart.WellFormed
import Statechart.Command.Toml
import Statechart.Compile
import Statechart.Diagnostic.Basic
import Statechart.Diagnostic.Code
import Statechart.Diagnostic.Failure
import Statechart.Dispatch.Basic
import Statechart.Dispatch.OfMachine
import Statechart.Graph.Walk
import Statechart.Machine.Basic
import Statechart.Machine.Finding
import Statechart.Machine.OfChart
import Statechart.Machine.Render
import Statechart.Main
import Statechart.Name.Basic
import Statechart.Name.Map
import Statechart.Name.Set
import Statechart.Nest.Absorb
import Statechart.Nest.Basic
import Statechart.Nest.Intersection
import Statechart.Nest.Resolve
import Statechart.Nest.Union
import Statechart.Proofs.Acceptance
import Statechart.Proofs.Boundary
import Statechart.Proofs.Closure
import Statechart.Proofs.Frame
import Statechart.Proofs.Hierarchy
import Statechart.Proofs.HierarchyOrder
import Statechart.Proofs.Inheritance
import Statechart.Proofs.Integrity
import Statechart.Proofs.Nest.Child
import Statechart.Proofs.Nest.Clear
import Statechart.Proofs.Nest.Descent
import Statechart.Proofs.Nest.Forest
import Statechart.Proofs.Nest.Growth
import Statechart.Proofs.Nest.Lift
import Statechart.Proofs.Nest.Names
import Statechart.Proofs.Nest.OfMachine
import Statechart.Proofs.Nest.Order
import Statechart.Proofs.Nest.Rearrange
import Statechart.Proofs.Nest.Simplify
import Statechart.Proofs.Nest.Substitute
import Statechart.Proofs.Nest.Tiers
import Statechart.Proofs.Nest.Union
import Statechart.Proofs.OneSuper
import Statechart.Proofs.Override
import Statechart.Proofs.Reader.Derivation
import Statechart.Proofs.Reader.Rendering
import Statechart.Proofs.Reader.Stage
import Statechart.Proofs.Resolve
import Statechart.Proofs.Selection
import Statechart.Proofs.SingleInheritance
import Statechart.Proofs.Stability
import Statechart.Proofs.Token.Cover
import Statechart.Proofs.Token.Scan
import Statechart.Proofs.TwoLevel
import Statechart.Proofs.VisitOrder
import Statechart.Proofs.Walk
import Statechart.Proofs.WellFormed
import Statechart.Reader.Basic
import Statechart.Reader.Draft
import Statechart.Reader.Table
import Statechart.Search
import Statechart.Session
import Statechart.Settings.Basic
import Statechart.Sort
import Statechart.Text.Character
import Statechart.Text.LineIndex
import Statechart.Text.Position
import Statechart.Text.Span
import Statechart.Token.Basic
import Statechart.Token.Scan
import Statechart.Proofs.Text.LineIndex
import Statechart.Proofs.Token.Position
import Statechart.Proofs.Token.Lines
import Statechart.Proofs.Reader.Conservation
import Statechart.Proofs.Reader.Pointing
import Statechart.Proofs.Grouping
import Statechart.Proofs.Session
import Statechart.Proofs.Ancestry
import Statechart.Proofs.Nest.Route
import Statechart.Proofs.Printing.Transcript
import Statechart.Proofs.Printing.Dispatch
import Statechart.Proofs.Printing.Machine
import Statechart.Proofs.Chain
