import TensorNetwork.IntMap
import TensorNetwork.Program
import TensorNetwork.Shape.Given

/-! Shapes of the tensors of a program, worked out operation by operation. A
tensor of unknown shape gets a fresh symbol for each axis when it is first
used. Axes joined by a contraction must not disagree; the first of them gives
the extent of a kept one. A split creates a bond as large as the smaller side
of the matrix it factors. -/
namespace TensorNetwork

abbrev Shape (ε : Type) := List ε

/-- A shape as it is written. -/
def Shape.text {ε : Type} [ExtentAlgebra ε] (shape : Shape ε) : String :=
  Text.tuple (shape.map ExtentAlgebra.text)

structure ShapeTable (ε : Type) where
  shapes : IntMap (Shape ε)
  deriving DecidableEq

namespace ShapeTable
variable {ε : Type} [ExtentAlgebra ε]

def shape (table : ShapeTable ε) (tensor : TensorId) : Except Error (Shape ε) :=
  match table.shapes.get? tensor with
  | some shape => .ok shape
  | none => .error (.unknownTensor tensor)

def assign (table : ShapeTable ε) (tensor : TensorId) (shape : Shape ε) : ShapeTable ε :=
  ⟨table.shapes.insert tensor shape⟩

def freshSymbol (tensor : TensorId) (axis : Nat) : ε :=
  ExtentAlgebra.symbol ("d" ++ toString tensor ++ "_" ++ toString axis)

def freshShape (tensor : TensorId) (rank : Nat) : Shape ε :=
  (List.range rank).map (freshSymbol tensor)

/-- The shape of a tensor used with a rank, and the table that knows it. -/
def use (table : ShapeTable ε) (tensor : TensorId) (rank : Nat) : Except Error (Shape ε × ShapeTable ε) :=
  match table.shapes.get? tensor with
  | none => .ok (freshShape tensor rank, table.assign tensor (freshShape tensor rank))
  | some shape =>
      if shape.length = rank then .ok (shape, table)
      else .error (.rankMismatch tensor shape.length rank)

/-- Binds a label to the extent of an axis, or compares it with the extent that
the label has already. -/
def bindAxis (tensor : TensorId) (bound : IntMap ε) (axis : Label × ε) : Except Error (IntMap ε) :=
  match bound.get? axis.1 with
  | none => .ok (bound.insert axis.1 axis.2)
  | some expected =>
      if ExtentAlgebra.disagrees expected axis.2 then
        .error (.extentMismatch axis.1 tensor (ExtentAlgebra.text axis.2) (ExtentAlgebra.text expected))
      else .ok bound

def bindOperand (state : ShapeTable ε × IntMap ε) (operand : Operand) :
    Except Error (ShapeTable ε × IntMap ε) := do
  let (shape, table) ← state.1.use operand.tensor operand.labels.length
  let bound ← (operand.labels.zip shape).foldlM (bindAxis operand.tensor) state.2
  .ok (table, bound)

def keptExtent (bound : IntMap ε) (label : Label) : Except Error ε :=
  match bound.get? label with
  | some extent => .ok extent
  | none => .error (.unboundLabel label)

def contract (table : ShapeTable ε) (c : Contraction) : Except Error (ShapeTable ε) := do
  let (table, bound) ← c.operands.foldlM bindOperand (table, .empty)
  let shape ← c.kept.mapM (keptExtent bound)
  .ok (table.assign c.output shape)

def transpose (table : ShapeTable ε) (t : Transposition) : Except Error (ShapeTable ε) := do
  let (shape, table) ← table.use t.input t.rank
  .ok (table.assign t.output (t.arrange shape))

/-- Rows and columns of the matrix made of the first `left` axes and the others. -/
def sides (left : Nat) (shape : Shape ε) : ε × ε :=
  (ExtentAlgebra.product (shape.take left), ExtentAlgebra.product (shape.drop left))

/-- The extent of the bond that splitting a shape creates. -/
def bond (left : Nat) (shape : Shape ε) : ε :=
  let (rows, columns) := sides left shape
  ExtentAlgebra.least [rows, columns]

def split (table : ShapeTable ε) (s : Split) : Except Error (ShapeTable ε) := do
  let (shape, table) ← table.use s.input s.rank
  let bond := bond s.left shape
  .ok ((table.assign s.q (shape.take s.left ++ [bond])).assign s.r (bond :: shape.drop s.left))

def step (table : ShapeTable ε) : Operation → Except Error (ShapeTable ε)
  | .contraction c => table.contract c
  | .transposition t => table.transpose t
  | .split s => table.split s
  | .foreign f => .error (.unsupported f.description)

def ofGiven (given : GivenShapes ε) : Except Error (ShapeTable ε) := do
  let pairs ← given.mapM fun (tensor, extents) => do
    .ok (tensor, ← extents.mapM GivenExtent.toExtent)
  .ok ⟨.ofList pairs⟩

/-- The shapes of all tensors of a program that starts from given ones. -/
def infer (p : Program) (given : GivenShapes ε) : Except Error (ShapeTable ε) := do
  p.operations.foldlM step (← ofGiven given)

/-- The shape of the matrix that a split factors. -/
def matrixShape (table : ShapeTable ε) (s : Split) : Except Error (ε × ε) :=
  (table.shape s.input).map (sides s.left)

end ShapeTable
end TensorNetwork
