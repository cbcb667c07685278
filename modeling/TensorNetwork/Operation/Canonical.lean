import TensorNetwork.Operation.Basic

/-! Canonical labels. The labels of a contraction are renamed to 0, 1, 2, … in the
order in which they first appear, so contractions that differ only in the names
of their labels become equal. -/
namespace TensorNetwork

/-- The place of a label among the distinct ones. -/
def canonicalLabel (order : List Label) (label : Label) : Label :=
  order.idxOf label

def Operand.relabel (rename : Label → Label) (operand : Operand) : Operand :=
  { operand with labels := operand.labels.map rename }

def Contraction.canonical (c : Contraction) : Except Error Contraction :=
  let order := c.labels.eraseDups
  match c.kept.find? fun label => !order.contains label with
  | some label => .error (.unboundLabel label)
  | none =>
      Contraction.ofOperands (c.operands.map (Operand.relabel (canonicalLabel order)))
        (c.kept.map (canonicalLabel order)) c.output

/-- Only contractions have labels to rename. -/
def Operation.canonical : Operation → Except Error Operation
  | .contraction c => c.canonical.map .contraction
  | _ => .error .notAContraction

/-- Contractions get canonical labels; other operations stay. -/
def Operation.normalized : Operation → Except Error Operation
  | .contraction c => c.canonical.map .contraction
  | op => .ok op

end TensorNetwork
