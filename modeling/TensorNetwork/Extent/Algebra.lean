import TensorNetwork.Extent.Profile

/-! Products and smallest members of extents in normal form. Factors are kept in
the order of their keys, and an integer is multiplied into a sum that is the only
other factor. The members of a smallest are distinct, none exceeds another by a
number, and they are kept by size and then key. So neither result depends on the
order of its arguments. Shapes use extents only by the operations gathered at the end. -/
namespace TensorNetwork

def Factor.le (f g : Factor) : Bool := f.profile.le g.profile

namespace Extent

/-- An integer times factors. -/
def scaled (c : Int) (factors : List Factor) : Extent :=
  if zero : c = 0 then ofInt 0
  else
    match factors with
    | [.linear form] => ⟨1, [.linear (form.scale c zero)]⟩
    | _ => ⟨c, factors⟩

/-- The product of some extents; of none it is one. -/
def product (extents : List Extent) : Extent :=
  scaled (extents.foldr (fun a c => a.coefficient * c) 1) (Ordered.sort Factor.le (extents.flatMap factors))

/-- A smallest of members stands for its members inside another. -/
def members : Extent → List Extent
  | ⟨1, [.least inner]⟩ => inner
  | a => [a]

/-- The order in which members are kept. -/
def memberLe (a b : Extent) : Bool :=
  Profile.keyLe (a.profile.nodes :: a.profile.key) (b.profile.nodes :: b.profile.key)

/-- The members kept of some extents. -/
def normalMembers (extents : List Extent) : List Extent :=
  let all := extents.flatMap members
  Ordered.sort memberLe (all.filter fun a => !all.any a.exceeds).eraseDups

/-- The smallest of some extents. -/
def least (extents : List Extent) : Extent :=
  match normalMembers extents with
  | [only] => only
  | kept => ⟨1, [.least kept]⟩

end Extent

/-- What is done with the extents of axes. -/
class ExtentAlgebra (ε : Type) where
  ofInt : Int → ε
  symbol : String → ε
  product : List ε → ε
  least : List ε → ε
  /-- Two extents are known to differ. -/
  disagrees : ε → ε → Bool
  text : ε → String

@[default_instance]
instance : ExtentAlgebra Extent where
  ofInt := Extent.ofInt
  symbol := Extent.symbol
  product := Extent.product
  least := Extent.least
  disagrees := Extent.disagrees
  text := Extent.text

namespace Extent

@[simp] theorem algebra_symbol (name : String) : ExtentAlgebra.symbol name = symbol name := rfl

@[simp] theorem algebra_product (extents : List Extent) : ExtentAlgebra.product extents = product extents := rfl

@[simp] theorem algebra_least (extents : List Extent) : ExtentAlgebra.least extents = least extents := rfl

@[simp] theorem algebra_disagrees (a b : Extent) : ExtentAlgebra.disagrees a b = a.disagrees b := rfl

end Extent
end TensorNetwork
