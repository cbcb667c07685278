import TensorNetwork.Datum
import TensorNetwork.Error
import TensorNetwork.Extent.Algebra

/-! Shapes supplied from outside. Integers and texts serve as extents, a text as
the name of a symbol; extents that are already symbolic stay as they are. -/
namespace TensorNetwork

inductive GivenExtent (ε : Type) where
  | datum (value : Datum)
  | extent (value : ε)

def GivenExtent.toExtent {ε : Type} [ExtentAlgebra ε] : GivenExtent ε → Except Error ε
  | .extent value => .ok value
  | .datum (.int n) => .ok (ExtentAlgebra.ofInt n)
  | .datum (.text name) => .ok (ExtentAlgebra.symbol name)
  | .datum (.bool value) => .error (.truthAsExtent (Datum.bool value).shown)
  | .datum value => .error (.notAnExtent value.shown value.kind)

/-- Shapes by tensor, in the order in which they were supplied. -/
abbrev GivenShapes (ε : Type) := List (TensorId × List (GivenExtent ε))

namespace GivenShapes
variable {ε : Type}

/-- A shape given again replaces the earlier one in its place. -/
def assign (tensor : TensorId) (shape : List (GivenExtent ε)) : GivenShapes ε → GivenShapes ε
  | [] => [(tensor, shape)]
  | entry :: rest =>
      if entry.1 = tensor then (tensor, shape) :: rest else entry :: assign tensor shape rest

def ofPairs (pairs : List (TensorId × List (GivenExtent ε))) : GivenShapes ε :=
  pairs.foldl (fun given pair => assign pair.1 pair.2 given) []

end GivenShapes
end TensorNetwork
