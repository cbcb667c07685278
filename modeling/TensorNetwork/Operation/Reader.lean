import TensorNetwork.Operation.Basic
import TensorNetwork.Operation.Tree
import TensorNetwork.Text.Integer

/-! Operations read from parse trees. Trees that do not come from a written
operation are refused with the part that is out of place. -/
namespace TensorNetwork.ParseTree

/-- The first node with a rule. -/
def find (rule : String) (tree : ParseTree) : Except Error ParseTree :=
  match tree with
  | .node _ _ =>
      match tree.firstWithRule? rule with
      | some found => .ok found
      | none => .error (.missingRule rule tree)
  | _ => .error .leafNotSearchable

/-- The text of the first leaf. -/
def firstText : ParseTree → Except Error String
  | .node rule children =>
      match (ParseTree.node rule children).leaves with
      | leaf :: _ => .ok leaf.leafText
      | [] => .error .noLeaf
  | _ => .error .leafNotSearchable

/-- The number of a token; the place of something absent has none. -/
def tokenInt (tree : ParseTree) : Except Error Int :=
  match tree with
  | .token _ text =>
      match Text.integer? text.toList with
      | some n => .ok n
      | none => .error (.notAnInteger 10 tree.description)
  | _ => .error .labelIsTree

def isPresent : ParseTree → Bool
  | .absent => false
  | _ => true

def labels : ParseTree → Except Error (List Label)
  | .node "labels" children => (children.filter isPresent).mapM tokenInt
  | tree => .error (.notLabels tree)

/-- The number after the first character of a text. -/
def numberAfterMark (text : String) : Except Error TensorId :=
  let digits := text.toList.drop 1
  match Text.integer? digits with
  | some n => .ok n
  | none => .error (.notAnInteger 10 (Text.quoted (String.ofList digits)))

def tensor : ParseTree → Except Error TensorId
  | .node "tensor" children => do numberAfterMark (← firstText (.node "tensor" children))
  | tree => .error (.notATensor tree)

def contraction (output : ParseTree) (operands : List ParseTree) (kept : ParseTree) :
    Except Error Operation := do
  let output ← output.tensor
  let tensors ← operands.mapM fun operand => do (← operand.find "tensor").tensor
  let subscripts ← operands.mapM fun operand => do (← operand.find "labels").labels
  let kept ← kept.labels
  (Contraction.make tensors subscripts kept output).map .contraction

def transposition (output input permutation : ParseTree) : Except Error Operation := do
  let output ← output.tensor
  let input ← input.tensor
  let permutation ← permutation.labels
  (Transposition.make input permutation output).map .transposition

def split (q r input rank left : ParseTree) : Except Error Operation := do
  let q ← q.tensor
  let r ← r.tensor
  let input ← input.tensor
  let rank ← rank.tokenInt
  let left ← left.tokenInt
  (Split.make input rank left q r).map .split

def operation : ParseTree → Except Error Operation
  | .node "einsum" (output :: operand :: rest) =>
      match rest.reverse with
      | kept :: between => contraction output (operand :: between.reverse) kept
      | [] => contraction output [] operand
  | .node "transpose" [output, input, permutation] => transposition output input permutation
  | .node "qr" [q, r, input, rank, left] => split q r input rank left
  | tree => .error (.unknownRule tree)

end TensorNetwork.ParseTree

namespace TensorNetwork.Operation

/-- The operation that a text describes. -/
def ofText (text : String) : Except Error Operation := do
  (← ParseTree.ofText text).operation

end TensorNetwork.Operation
