import Mathlib.Data.List.Basic
import TensorNetwork.Operation.Text
import TensorNetwork.Shape.Table

/-! Names tell what they were made for apart: tensors have different variables, and
axes of tensors of unknown shape have different symbols. -/
namespace TensorNetwork

theorem toString_nat_injective : Function.Injective (toString : Nat → String) := by
  intro m n same
  have digits := congrArg String.toList same
  rw [Nat.toString_eq_repr, Nat.toString_eq_repr, Nat.toList_repr, Nat.toList_repr] at digits
  rw [← Nat.ofDigitChars_toDigits (b := 10) (n := m) (by decide) (by decide), digits,
    Nat.ofDigitChars_toDigits (by decide) (by decide)]

theorem dash_notMem_nat (n : Nat) : '-' ∉ n.repr.toList := by
  rw [Nat.toList_repr]
  intro held
  cases Nat.isDigit_of_mem_toDigits (by decide) (by decide) held

theorem toString_int_injective : Function.Injective (toString : Int → String) := by
  -- only numbers below zero begin with a dash
  have signed : ∀ m n : Nat, m.repr ≠ "-" ++ n.repr := by
    intro m n same
    apply dash_notMem_nat m
    rw [same, String.toList_append]
    exact List.mem_append_left _ List.mem_cons_self
  intro a b same
  simp only [Int.toString_eq_repr, Int.repr_eq_if] at same
  split at same <;> split at same
  · have := toString_nat_injective same
    omega
  · exact (signed _ _ same).elim
  · exact (signed _ _ same.symm).elim
  · have := toString_nat_injective ((String.append_right_inj "-").mp same)
    omega

theorem tensorName_injective : Function.Injective tensorName := by
  intro a b same
  exact toString_int_injective ((String.append_right_inj "T").mp same)

theorem underscore_notMem_int (n : Int) : '_' ∉ (toString n).toList := by
  rw [Int.toString_eq_repr, Int.repr_eq_if]
  split
  · simp [Nat.toList_repr, Nat.underscore_not_in_toDigits]
  · simp [Nat.toList_repr, Nat.underscore_not_in_toDigits]

namespace ShapeTable

/-- The name of the symbol for an axis of a tensor of unknown shape. -/
def freshName (tensor : TensorId) (axis : Nat) : String := "d" ++ toString tensor ++ "_" ++ toString axis

theorem freshSymbol_eq (tensor : TensorId) (axis : Nat) :
    (freshSymbol tensor axis : Extent) = .symbol (freshName tensor axis) := rfl

/-- The mark between both numbers occurs in neither of them. -/
theorem freshName_injective {s t : TensorId} {i j : Nat} (same : freshName s i = freshName t j) :
    s = t ∧ i = j := by
  have letters := congrArg String.toList same
  simp only [freshName, String.toList_append, List.append_assoc] at letters
  have rest := (List.append_cancel_left_eq _ _ _).mp letters
  have axis : '_' ∉ (toString i).toList := by
    simp [Nat.toString_eq_repr, Nat.toList_repr, Nat.underscore_not_in_toDigits]
  obtain ⟨tensors, -, axes⟩ := (List.append_cons_inj_of_notMem (underscore_notMem_int s) axis).mp rest
  refine ⟨toString_int_injective (String.toList_injective tensors), ?_⟩
  exact toString_nat_injective (String.toList_injective axes)

end ShapeTable
end TensorNetwork
