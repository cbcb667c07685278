import Mathlib.Data.List.Perm.Basic
import TensorNetwork.Proofs.Arrays.Library

/-! Tensors as arrays: a shape and the entries in row-major order. The entries of
a contraction are sums over all assignments of its labels; the factors of a
matrix are left open but for their shapes. -/
namespace TensorNetwork

/-- All indices into a shape, the last axis running fastest. -/
def indices : List Nat → List (List Nat)
  | [] => [[]]
  | extent :: rest => (List.range extent).flatMap fun i => (indices rest).map (i :: ·)

theorem length_indices (shape : List Nat) : (indices shape).length = shape.prod := by
  induction shape with
  | nil => rfl
  | cons extent rest ih => simp [indices, List.length_flatMap, ih]

structure Tensor (α : Type) where
  shape : List Nat
  data : List α
  size : data.length = shape.prod

namespace Tensor
variable {α : Type}

def tabulate (shape : List Nat) (f : List Nat → α) : Tensor α :=
  ⟨shape, (indices shape).map f, by rw [List.length_map, length_indices]⟩

/-- The entry at an index. There is none outside of the shape, so zero is taken. -/
def entry [Zero α] (t : Tensor α) (index : List Nat) : α :=
  (t.data[(indices t.shape).idxOf index]?).getD 0

@[simp] theorem entry_tabulate [Zero α] {shape index : List Nat} (inside : index ∈ indices shape)
    (f : List Nat → α) : (tabulate shape f).entry index = f index := by
  have bound := List.idxOf_lt_length_of_mem inside
  simp [entry, tabulate, List.getElem?_eq_getElem bound]

/-- Axis `i` of the result is axis `axes[i]` of the tensor. -/
def transpose [Zero α] (t : Tensor α) (axes : List Int) : Option (Tensor α) :=
  if axes.Perm ((List.range t.shape.length).map Int.ofNat) then
    some (tabulate (axes.map fun axis => t.shape.getD axis.toNat 0) fun index =>
      t.entry ((List.range t.shape.length).map fun axis => index.getD (axes.idxOf (axis : Int)) 0))
  else none

def reshape (t : Tensor α) (shape : List Nat) : Option (Tensor α) :=
  if size : shape.prod = t.shape.prod then some ⟨shape, t.data, t.size.trans size.symm⟩ else none

/-- The extent of a label is that of the first axis that carries it. -/
def extent (operands : List (Tensor α × List Label)) (label : Label) : Option Nat :=
  (operands.flatMap fun operand => operand.2.zip operand.1.shape).lookup label

/-- Each axis has a label, and axes with one label have one extent. -/
def Consistent (operands : List (Tensor α × List Label)) : Prop :=
  ∀ operand ∈ operands, operand.2.map (extent operands) = operand.1.shape.map some

instance (operands : List (Tensor α × List Label)) : Decidable (Consistent operands) :=
  inferInstanceAs (Decidable (∀ operand ∈ operands, _))

/-- The labels that are summed over. -/
def summed (operands : List (Tensor α × List Label)) (kept : List Label) : List Label :=
  (operands.flatMap Prod.snd).eraseDups.filter (· ∉ kept)

/-- The assignment of values to labels, in their order. -/
def assignment (labels : List Label) (values : List Nat) (label : Label) : Nat :=
  ((labels.zip values).lookup label).getD 0

/-- The product of the entries that an assignment selects. -/
def term [CommSemiring α] (operands : List (Tensor α × List Label)) (value : Label → Nat) : α :=
  (operands.map fun operand => operand.1.entry (operand.2.map value)).prod

/-- An index of the result assigns the kept labels, and the others run through
all of their values. -/
def einsum [CommSemiring α] (operands : List (Tensor α × List Label)) (kept : List Label) : Option (Tensor α) :=
  if Consistent operands then do
    let shape ← kept.mapM (extent operands)
    let ranges ← (summed operands kept).mapM (extent operands)
    some (tabulate shape fun index =>
      ((indices ranges).map fun values =>
        term operands (assignment (kept ++ summed operands kept) (index ++ values))).sum)
  else none

/-- A way of factoring matrices, with as many inner rows and columns as the smaller side. -/
structure Factoring (α : Type) where
  q : Tensor α → Tensor α
  r : Tensor α → Tensor α
  shape_q : ∀ {matrix : Tensor α} {rows columns : Nat}, matrix.shape = [rows, columns] →
    (q matrix).shape = [rows, min rows columns]
  shape_r : ∀ {matrix : Tensor α} {rows columns : Nat}, matrix.shape = [rows, columns] →
    (r matrix).shape = [min rows columns, columns]

def Factoring.apply (factoring : Factoring α) (t : Tensor α) : Option (Tensor α × Tensor α) :=
  if t.shape.length = 2 then some (factoring.q t, factoring.r t) else none

/-- A matrix that is not higher than wide is a unit matrix times itself. -/
def Factoring.unit [CommSemiring α] : Factoring α where
  q matrix := match matrix.shape with
    | [rows, columns] => tabulate [rows, min rows columns] fun index => if index.head? = index.getLast? then 1 else 0
    | _ => matrix
  r matrix := match matrix.shape with
    | [rows, columns] => tabulate [min rows columns, columns] matrix.entry
    | _ => matrix
  shape_q shape := by
    simp only [shape]
    rfl
  shape_r shape := by
    simp only [shape]
    rfl

def library [CommSemiring α] (factoring : Factoring α) : ArrayLibrary (Tensor α) where
  shape := shape
  einsum := einsum
  transpose := transpose
  reshape := reshape
  qr := factoring.apply
  shape_reshape {a b extents} done := by
    unfold reshape at done
    split at done
    · cases done
      rfl
    · cases done
  reshape_shape a := by simp [reshape]
  shape_qr {a q r rows columns} done matrix := by
    unfold Factoring.apply at done
    split at done
    · cases done
      exact ⟨factoring.shape_q matrix, factoring.shape_r matrix⟩
    · cases done

end Tensor
end TensorNetwork
