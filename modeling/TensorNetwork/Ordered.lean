/-! Sorting by insertion. The recursion is structural, so that sorted lists are
computed by reduction alone. -/
namespace TensorNetwork.Ordered
variable {α : Type}

def insert (le : α → α → Bool) (a : α) : List α → List α
  | [] => [a]
  | b :: rest => if le a b then a :: b :: rest else b :: insert le a rest

def sort (le : α → α → Bool) (l : List α) : List α := l.foldr (insert le) []

end TensorNetwork.Ordered
