import TensorNetwork.IntMap
import TensorNetwork.Program

/-! The tensors of a program and their roles. A tensor that is used before
anything produces it is an input; one that is produced and never used is an
output. A tensor that is already known cannot be produced. -/
namespace TensorNetwork

structure Role where
  isInput : Bool
  isOutput : Bool
  deriving DecidableEq

namespace Role

def truth (value : Bool) : String := if value then "True" else "False"

def description (role : Role) : String :=
  "SymbolEntry(is_input=" ++ truth role.isInput ++ ", is_output=" ++ truth role.isOutput ++ ")"

end Role

structure SymbolTable where
  roles : IntMap Role
  deriving DecidableEq

namespace SymbolTable

/-- A used tensor is no output; if it is new, it is an input. -/
def use (roles : IntMap Role) (tensor : TensorId) : IntMap Role :=
  match roles.get? tensor with
  | some role => roles.insert tensor { role with isOutput := false }
  | none => roles.insert tensor ⟨true, false⟩

def define (roles : IntMap Role) (tensor : TensorId) : Except Error (IntMap Role) :=
  if roles.contains tensor then .error (.duplicateOutput tensor)
  else .ok (roles.insert tensor ⟨false, true⟩)

def record (roles : IntMap Role) : Operation → Except Error (IntMap Role)
  | .foreign f => .error (.unsupported f.description)
  | op => op.outputs.foldlM define (op.inputs.foldl use roles)

def withRole (p : Role → Bool) (table : SymbolTable) : List TensorId :=
  (table.roles.entries.filter fun entry => p entry.2).map Prod.fst

/-- The inputs of the program in ascending order. -/
def inputs (table : SymbolTable) : List TensorId := table.withRole Role.isInput

/-- The outputs of the program in ascending order. -/
def outputs (table : SymbolTable) : List TensorId := table.withRole Role.isOutput

def ofProgram (p : Program) : Except Error SymbolTable := do
  let table : SymbolTable := ⟨← p.operations.foldlM record .empty⟩
  if table.outputs = [] then .error .noOutput else .ok table

def size (table : SymbolTable) : Nat := table.roles.size

def contains (table : SymbolTable) (tensor : TensorId) : Bool := table.roles.contains tensor

def role (table : SymbolTable) (tensor : TensorId) : Except Error Role :=
  match table.roles.get? tensor with
  | some role => .ok role
  | none => .error (.unknownTensor tensor)

end SymbolTable
end TensorNetwork
