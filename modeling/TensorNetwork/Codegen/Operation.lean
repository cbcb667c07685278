import TensorNetwork.Shape.Table
import TensorNetwork.Source.Render

/-! The statements that carry out an operation on arrays. With shapes at hand
every assignment is followed by a comment on the shape it produces. -/
namespace TensorNetwork.Codegen
open Source
variable {ε : Type} [ExtentAlgebra ε]

/-- The name under which the array library is loaded. -/
def library : String := "np"

def tensorVar (tensor : TensorId) : Expr := .var (tensorName tensor)

def intTuple (values : List Int) : Expr := .tuple (values.map .int)

def libraryCall (name : String) (arguments : List Argument) : Expr :=
  .call (library ++ "." ++ name) arguments

/-- A slice of the shape of a tensor. -/
def shapeSlice (tensor : TensorId) (start stop : Option Int) : Expr :=
  .access (.field (tensorName tensor) "shape") (.slice (start.map .int) (stop.map .int))

/-- One extent of a tensor, as a tuple. -/
def shapeItem (tensor : TensorId) (axis : Int) : Expr :=
  .tuple [.access (.field (tensorName tensor) "shape") (.int axis)]

def shapeComment (shapes : Option (ShapeTable ε)) (tensor : TensorId) : Except Error (Option String) :=
  match shapes with
  | none => .ok none
  | some table => (table.shape tensor).map fun shape => some ("shape: " ++ shape.text)

def assign (shapes : Option (ShapeTable ε)) (tensor : TensorId) (value : Expr) : Except Error Statement :=
  (shapeComment shapes tensor).map (.assign (.var (tensorName tensor)) value)

def operandArguments (operand : Operand) : List Argument :=
  [.positional (tensorVar operand.tensor), .positional (intTuple operand.labels)]

def contractionCall (c : Contraction) : Expr :=
  libraryCall "einsum" (c.operands.flatMap operandArguments ++ [.positional (intTuple c.kept)])

def transpositionCall (t : Transposition) : Expr :=
  libraryCall "transpose" [.positional (tensorVar t.input), .positional (intTuple t.permutation)]

def size (axes : Expr) : Expr := libraryCall "prod" [.positional axes]

def reshape (tensor : TensorId) (shape : Expr) : Expr :=
  .method (tensorVar tensor) "reshape" [.positional shape]

def leftAxes (s : Split) : Expr := shapeSlice s.input none (some s.left)

def rightAxes (s : Split) : Expr := shapeSlice s.input (some s.left) none

/-- The matrix that a split factors; a tensor with two axes is one already. -/
def splitMatrix (s : Split) : Expr :=
  if s.rank = 2 then tensorVar s.input
  else reshape s.input (.tuple [size (leftAxes s), size (rightAxes s)])

def splitCall (s : Split) : Expr :=
  libraryCall "linalg.qr" [.positional (splitMatrix s), .keyword "mode" (.string "reduced")]

/-- The shapes of both factors as matrices. -/
def factorComment (shapes : Option (ShapeTable ε)) (s : Split) : Except Error (Option String) :=
  match shapes with
  | none => .ok none
  | some table => do
      let (rows, columns) ← table.matrixShape s
      match (← table.shape s.q).getLast? with
      | none => .error .noBond
      | some bond =>
          .ok (some ("shapes: " ++ Shape.text [rows, bond] ++ ", " ++ Shape.text [bond, columns]))

/-- The factor `q` gets back the axes on the left, if they are several. -/
def restoreLeft (shapes : Option (ShapeTable ε)) (s : Split) : Except Error (List Statement) :=
  if 1 < s.left then
    (assign shapes s.q (reshape s.q (.binary (leftAxes s) .add (shapeItem s.q 1)))).map ([·])
  else .ok []

/-- The factor `r` gets back the axes on the right, if they are several. -/
def restoreRight (shapes : Option (ShapeTable ε)) (s : Split) : Except Error (List Statement) :=
  if 1 < s.right then
    (assign shapes s.r (reshape s.r (.binary (shapeItem s.r 0) .add (rightAxes s)))).map ([·])
  else .ok []

def splitStatements (shapes : Option (ShapeTable ε)) (s : Split) : Except Error (List Statement) := do
  let factors := Target.tuple [.var (tensorName s.q), .var (tensorName s.r)]
  let comment ← factorComment shapes s
  let left ← restoreLeft shapes s
  let right ← restoreRight shapes s
  .ok (.assign factors (splitCall s) comment :: (left ++ right))

/-- The statements of an operation, in order. -/
def statements (shapes : Option (ShapeTable ε)) : Operation → Except Error (List Statement)
  | .contraction c => (assign shapes c.output (contractionCall c)).map ([·])
  | .transposition t => (assign shapes t.output (transpositionCall t)).map ([·])
  | .split s => splitStatements shapes s
  | .foreign f => .error (.unsupported f.description)

/-- The statements of whatever a caller offers as an operation. -/
def candidateStatements (shapes : Option (ShapeTable ε)) : Candidate → Except Error (List Statement)
  | .operation op => statements shapes op
  | .datum value => .error (.unsupported value.literal)

end TensorNetwork.Codegen
