import TensorNetwork.Codegen.Operation
import TensorNetwork.SymbolTable

/-! The source of a whole program: a function of its inputs that returns its
outputs, both in ascending order. -/
namespace TensorNetwork.Codegen
open Source
variable {ε : Type} [ExtentAlgebra ε]

/-- The name of the function where none is chosen. -/
def defaultName : String := "f"

/-- A single output is returned itself and several as a tuple. -/
def resultStatement : List TensorId → Statement
  | [tensor] => .result (tensorVar tensor)
  | tensors => .result (.tuple (tensors.map tensorVar))

def functionBody (p : Program) (outputs : List TensorId) (shapes : Option (ShapeTable ε)) :
    Except Error (List Statement) := do
  let parts ← p.operations.mapM (statements shapes)
  .ok (parts.flatten ++ [resultStatement outputs])

def moduleOf (name : String) (p : Program) (table : SymbolTable) (shapes : Option (ShapeTable ε)) :
    Except Error Statement := do
  let body ← functionBody p table.outputs shapes
  let function := Statement.function name (table.inputs.map tensorName) (.block body)
  .ok (.block [.load "numpy" (some library), .blank, .blank, function])

/-- Shapes are worked out only if some are given, be it for no tensor. -/
def inferred (p : Program) : Option (GivenShapes ε) → Except Error (Option (ShapeTable ε))
  | none => .ok none
  | some given => (ShapeTable.infer p given).map some

/-- The source of a program whose roles are known. -/
def compileWith (table : SymbolTable) (name : String) (p : Program) (given : Option (GivenShapes ε)) :
    Except Error Statement := do
  moduleOf name p table (← inferred p given)

/-- The source of a program. -/
def compile (name : String) (p : Program) (given : Option (GivenShapes ε)) : Except Error Statement := do
  compileWith (← SymbolTable.ofProgram p) name p given

/-- The text of a source file. -/
def fileText (source : Statement) : String := source.render 0 ++ "\n"

end TensorNetwork.Codegen
