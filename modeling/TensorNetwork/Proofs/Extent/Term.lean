import TensorNetwork.Proofs.Extent.Value
import TensorNetwork.Shape.Given

/-! Extents as they are supplied from outside: integers, names of symbols, and terms
that add integers to symbols and that multiply and compare terms. A term has the value
of its normal form. -/
namespace TensorNetwork

namespace Extent

inductive Term where
  | int (n : Int)
  | symbol (name : String)
  /-- A symbol and an integer added to it. -/
  | sum (name : String) (offset : Int)
  | product (factors : List Term)
  /-- The smallest of at least one term. -/
  | least (first : Term) (others : List Term)

mutual
/-- The normal form of a term. -/
def Term.extent : Term → Extent
  | .int n => ofInt n
  | .symbol name => Extent.symbol name
  | .sum name offset => Extent.linear 1 name offset
  | .product factors => Extent.product (Term.extents factors)
  | .least first others => Extent.least (first.extent :: Term.extents others)

def Term.extents : List Term → List Extent
  | [] => []
  | term :: rest => term.extent :: Term.extents rest
end

mutual
/-- The value of a term: its products multiply and its smallest members are compared. -/
def Term.value (v : String → Int) : Term → Int
  | .int n => n
  | .symbol name => v name
  | .sum name offset => v name + offset
  | .product factors => (Term.values v factors).prod
  | .least first others => (Term.values v others).foldl min (first.value v)

def Term.values (v : String → Int) : List Term → List Int
  | [] => []
  | term :: rest => term.value v :: Term.values v rest
end

mutual
theorem Term.proper_extent : (term : Term) → term.extent.Proper
  | .int n => proper_ofInt n
  | .symbol name => proper_symbol name
  | .sum name offset => proper_linear 1 name offset
  | .product factors => proper_product (Term.proper_extents factors)
  | .least first others => proper_least (List.cons_ne_nil _ _) (by
      intro a member
      rcases List.mem_cons.mp member with rfl | other
      · exact first.proper_extent
      · exact Term.proper_extents others a other)

theorem Term.proper_extents : (terms : List Term) → ∀ a ∈ Term.extents terms, a.Proper
  | [] => by simp [Term.extents]
  | term :: rest => by
      intro a member
      rcases List.mem_cons.mp member with rfl | other
      · exact term.proper_extent
      · exact Term.proper_extents rest a other
end

mutual
theorem Term.value_extent (v : String → Int) : (term : Term) → term.extent.value v = term.value v
  | .int n => value_ofInt v n
  | .symbol name => value_symbol v name
  | .sum name offset => by rw [Term.extent, value_linear, one_mul, Term.value]
  | .product factors => by
      rw [Term.extent, value_product, Term.value_extents v factors, Term.value]
  | .least first others => by
      have proper := (Term.proper_extents (first :: others))
      rw [Term.extents] at proper
      rw [Term.extent, Term.value]
      apply value_least v proper
      rw [List.map_cons, Term.value_extent v first, Term.value_extents v others]
      rfl

theorem Term.value_extents (v : String → Int) :
    (terms : List Term) → (Term.extents terms).map (Extent.value v) = Term.values v terms
  | [] => rfl
  | term :: rest => by
      rw [Term.extents, List.map_cons, Term.value_extent v term, Term.value_extents v rest, Term.values]
end

end Extent

/-- An extent that a caller may give to a tensor. -/
inductive Dimension where
  | integer (n : Int)
  | name (text : String)
  | term (t : Extent.Term)

namespace Dimension

def given : Dimension → GivenExtent Extent
  | .integer n => .datum (.int n)
  | .name text => .datum (.text text)
  | .term t => .extent t.extent

def extent : Dimension → Extent
  | .integer n => .ofInt n
  | .name text => .symbol text
  | .term t => t.extent

def value (v : String → Int) : Dimension → Int
  | .integer n => n
  | .name text => v text
  | .term t => t.value v

theorem toExtent_given (d : Dimension) : d.given.toExtent = .ok d.extent := by
  cases d <;> rfl

theorem proper_extent (d : Dimension) : d.extent.Proper := by
  cases d with
  | integer n => exact Extent.proper_ofInt n
  | name text => exact Extent.proper_symbol text
  | term t => exact t.proper_extent

theorem value_extent (v : String → Int) (d : Dimension) : d.extent.value v = d.value v := by
  cases d with
  | integer n => exact Extent.value_ofInt v n
  | name text => exact Extent.value_symbol v text
  | term t => exact t.value_extent v

end Dimension
end TensorNetwork
