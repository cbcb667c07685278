import TensorNetwork.Binary64.Basic
import TensorNetwork.Binary64.Numeral
import TensorNetwork.Binary64.Shortest
import TensorNetwork.Codegen.Module
import TensorNetwork.Codegen.Operation
import TensorNetwork.CommandLine
import TensorNetwork.Datum
import TensorNetwork.Document
import TensorNetwork.Error
import TensorNetwork.Extent.Algebra
import TensorNetwork.Extent.Basic
import TensorNetwork.Extent.Profile
import TensorNetwork.Extent.Value
import TensorNetwork.Grouping
import TensorNetwork.IntMap
import TensorNetwork.Main
import TensorNetwork.Operation.Basic
import TensorNetwork.Operation.Canonical
import TensorNetwork.Operation.Reader
import TensorNetwork.Operation.Text
import TensorNetwork.Operation.Token
import TensorNetwork.Operation.Tree
import TensorNetwork.Ordered
import TensorNetwork.ParseTree
import TensorNetwork.Program
import TensorNetwork.Proofs.Arrays.Library
import TensorNetwork.Proofs.Arrays.Relabelling
import TensorNetwork.Proofs.Arrays.ShapeRules
import TensorNetwork.Proofs.Arrays.Tensor
import TensorNetwork.Proofs.Codegen.Annotations
import TensorNetwork.Proofs.Codegen.Comments
import TensorNetwork.Proofs.Codegen.Distinction
import TensorNetwork.Proofs.Codegen.Evaluation
import TensorNetwork.Proofs.Codegen.Footprint
import TensorNetwork.Proofs.Codegen.Layout
import TensorNetwork.Proofs.Codegen.Meaning
import TensorNetwork.Proofs.Codegen.Scaffold
import TensorNetwork.Proofs.Codegen.Scoping
import TensorNetwork.Proofs.Codegen.Validation
import TensorNetwork.Proofs.Construction
import TensorNetwork.Proofs.Delimited
import TensorNetwork.Proofs.Distinct
import TensorNetwork.Proofs.Extent.Lines
import TensorNetwork.Proofs.Extent.Order
import TensorNetwork.Proofs.Extent.Term
import TensorNetwork.Proofs.Extent.Value
import TensorNetwork.Proofs.Grouping.Components
import TensorNetwork.Proofs.Grouping.Piecewise
import TensorNetwork.Proofs.Grouping.Scanning
import TensorNetwork.Proofs.Names
import TensorNetwork.Proofs.Normalization
import TensorNetwork.Proofs.Operation.Equivalence
import TensorNetwork.Proofs.Operation.FirstAppearance
import TensorNetwork.Proofs.Operation.Grammar
import TensorNetwork.Proofs.Operation.NormalForm
import TensorNetwork.Proofs.Operation.Recognition
import TensorNetwork.Proofs.Operation.RoundTrip
import TensorNetwork.Proofs.Operation.Spelling
import TensorNetwork.Proofs.Operation.WrittenForms
import TensorNetwork.Proofs.Ordered
import TensorNetwork.Proofs.Outcome
import TensorNetwork.Proofs.Reordering
import TensorNetwork.Proofs.Roles
import TensorNetwork.Proofs.Session.Allocation
import TensorNetwork.Proofs.Session.Atomic
import TensorNetwork.Proofs.Session.Commit
import TensorNetwork.Proofs.Session.Contract
import TensorNetwork.Proofs.Session.Export
import TensorNetwork.Proofs.Session.Freshness
import TensorNetwork.Proofs.Session.Ranks
import TensorNetwork.Proofs.Session.Renaming
import TensorNetwork.Proofs.Session.Restoration
import TensorNetwork.Proofs.Session.Serve
import TensorNetwork.Proofs.Session.Stages
import TensorNetwork.Proofs.Shape.AxisOrder
import TensorNetwork.Proofs.Shape.Completeness
import TensorNetwork.Proofs.Shape.Constraints
import TensorNetwork.Proofs.Shape.Instance
import TensorNetwork.Proofs.Shape.Relations
import TensorNetwork.Proofs.Shape.Stationary
import TensorNetwork.Proofs.Shape.Transposition
import TensorNetwork.Proofs.Shape.Valuation
import TensorNetwork.Proofs.SingleAssignment
import TensorNetwork.Proofs.Source.Comments
import TensorNetwork.Proofs.Source.Execution
import TensorNetwork.Proofs.Source.Indentation
import TensorNetwork.Proofs.Text.Decimal
import TensorNetwork.Proofs.Text.Listing
import TensorNetwork.Session.Basic
import TensorNetwork.Session.Edit
import TensorNetwork.Session.Request
import TensorNetwork.Shape.Given
import TensorNetwork.Shape.Table
import TensorNetwork.Source.Basic
import TensorNetwork.Source.Render
import TensorNetwork.SymbolTable
import TensorNetwork.Text.Integer
import TensorNetwork.Text.Listing
import TensorNetwork.Text.Quoted
import TensorNetwork.Yaml.Load
import TensorNetwork.Yaml.Node
import TensorNetwork.Yaml.Plain
import TensorNetwork.Yaml.Scalar
import TensorNetwork.Yaml.Token
