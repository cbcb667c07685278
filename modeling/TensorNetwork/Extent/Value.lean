import TensorNetwork.Extent.Basic

/-! The value of an extent once its symbols stand for integers. The smallest of
no members is taken to be zero. -/
namespace TensorNetwork

mutual
def Extent.value (valuation : String → Int) : Extent → Int
  | ⟨c, factors⟩ => c * (Factor.values valuation factors).foldr (· * ·) 1

def Factor.value (valuation : String → Int) : Factor → Int
  | .symbol name => valuation name
  | .linear form => form.slope * valuation form.name + form.offset
  | .least members =>
      match Extent.values valuation members with
      | [] => 0
      | first :: rest => rest.foldl min first

def Extent.values (valuation : String → Int) : List Extent → List Int
  | [] => []
  | a :: rest => a.value valuation :: Extent.values valuation rest

def Factor.values (valuation : String → Int) : List Factor → List Int
  | [] => []
  | f :: rest => f.value valuation :: Factor.values valuation rest
end

end TensorNetwork
