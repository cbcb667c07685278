import TensorNetwork.Error

/-! The operations of a tensor network. Each consumes tensors and produces new
ones. The checks made when an operation is built are fields of its type, so an
operation at hand is a well-formed one. -/
namespace TensorNetwork

/-- A tensor of a contraction with a label for each of its axes. -/
structure Operand where
  tensor : TensorId
  labels : List Label
  deriving DecidableEq

/-- The tensors that carry a label, once for each operand. -/
def owners (label : Label) (operands : List Operand) : List TensorId :=
  (operands.filter fun operand => operand.labels.contains label).map Operand.tensor

/-- Axes with one label are joined; those whose label is not kept are summed. -/
structure Contraction where
  operands : List Operand
  kept : List Label
  output : TensorId
  operands_nonempty : operands ≠ []
  kept_nodup : kept.Nodup
  kept_owned : ∀ label ∈ kept, (owners label operands).length ≤ 1
  deriving DecidableEq

namespace Contraction

def ofOperands (operands : List Operand) (kept : List Label) (output : TensorId) :
    Except Error Contraction :=
  if nonempty : operands = [] then .error .noOperands
  else if nodup : kept.Nodup then
    match owned : kept.find? fun label => 1 < (owners label operands).length with
    | some label => .error (.sharedKept label (owners label operands))
    | none =>
        .ok ⟨operands, kept, output, nonempty, nodup, fun label member => by
          simpa using List.find?_eq_none.mp owned label member⟩
  else .error (.repeatedKept kept)

/-- A contraction given by its tensors and, for each, the list of its labels. -/
def make (tensors : List TensorId) (subscripts : List (List Label)) (kept : List Label)
    (output : TensorId) : Except Error Contraction :=
  if tensors = [] then .error .noOperands
  else if tensors.length = subscripts.length then
    ofOperands (List.zipWith Operand.mk tensors subscripts) kept output
  else .error (.operandCount tensors.length subscripts.length)

def inputs (c : Contraction) : List TensorId := c.operands.map Operand.tensor

def subscripts (c : Contraction) : List (List Label) := c.operands.map Operand.labels

/-- All labels of the operands, in order. -/
def labels (c : Contraction) : List Label := c.operands.flatMap Operand.labels

end Contraction

/-- Axis `i` of the output is axis `permutation[i]` of the input. -/
structure Transposition where
  input : TensorId
  permutation : List Int
  output : TensorId
  complete : ∀ axis, axis < permutation.length → (axis : Int) ∈ permutation
  deriving DecidableEq

namespace Transposition

def make (input : TensorId) (permutation : List Int) (output : TensorId) :
    Except Error Transposition :=
  match complete : (List.range permutation.length).find?
      fun axis : Nat => !permutation.contains (axis : Int) with
  | some axis => .error (.missingAxis permutation axis)
  | none =>
      .ok ⟨input, permutation, output, fun axis bound => by
        simpa using List.find?_eq_none.mp complete axis (List.mem_range.mpr bound)⟩

def rank (t : Transposition) : Nat := t.permutation.length

/-- Items of the input's axes in the order of the output's axes. -/
def arrange {α : Type} (t : Transposition) (items : List α) : List α :=
  t.permutation.filterMap fun axis => items[axis.toNat]?

end Transposition

/-- The first `left` axes of the input go to the factor `q`, which gains a last
axis; the others go to the factor `r`, which gains a first axis. -/
structure Split where
  input : TensorId
  rank : Nat
  left : Nat
  q : TensorId
  r : TensorId
  left_pos : 1 ≤ left
  left_lt : left < rank
  deriving DecidableEq

namespace Split

def make (input : TensorId) (rank left : Int) (q r : TensorId) : Except Error Split :=
  if rank < 2 then .error (.splitOfVector rank)
  else if early : left < 1 then .error (.splitTooEarly left)
  else if late : rank ≤ left then .error (.splitTooLate rank left)
  else .ok ⟨input, rank.toNat, left.toNat, q, r, by omega, by omega⟩

def right (s : Split) : Nat := s.rank - s.left

end Split

/-- An operation of a kind that the compiler does not know. -/
structure Foreign where
  name : String
  inputs : List TensorId
  outputs : List TensorId
  deriving DecidableEq

inductive Operation where
  | contraction (c : Contraction)
  | transposition (t : Transposition)
  | split (s : Split)
  | foreign (f : Foreign)
  deriving DecidableEq

namespace Operation

def inputs : Operation → List TensorId
  | .contraction c => c.inputs
  | .transposition t => [t.input]
  | .split s => [s.input]
  | .foreign f => f.inputs

def outputs : Operation → List TensorId
  | .contraction c => [c.output]
  | .transposition t => [t.output]
  | .split s => [s.q, s.r]
  | .foreign f => f.outputs

end Operation
end TensorNetwork
