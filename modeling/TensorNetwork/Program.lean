import TensorNetwork.Datum
import TensorNetwork.Operation.Text

/-! Programs: operations in the order in which they are carried out. -/
namespace TensorNetwork

/-- What a caller offers as an operation. -/
inductive Candidate where
  | operation (op : Operation)
  | datum (value : Datum)

/-- A candidate as it is shown in messages. -/
def Candidate.description : Candidate → String
  | .operation op => op.description
  | .datum value => value.literal

structure Program where
  operations : List Operation
  deriving DecidableEq

namespace Program

def empty : Program := ⟨[]⟩

def length (p : Program) : Nat := p.operations.length

def push (p : Program) (op : Operation) : Program := ⟨p.operations ++ [op]⟩

/-- Only operations can be appended. -/
def append (p : Program) : Candidate → Except Error Program
  | .operation op => .ok (p.push op)
  | .datum value => .error (.notAnOperation value.literal)

def ofCandidates (candidates : List Candidate) : Except Error Program :=
  candidates.foldlM append empty

/-- The tensors that some operation produces, in order and with repetition. -/
def produced (p : Program) : List TensorId := p.operations.flatMap Operation.outputs

/-- One operation a line. -/
def text (p : Program) : String := "\n".intercalate (p.operations.map Operation.text)

end Program
end TensorNetwork
