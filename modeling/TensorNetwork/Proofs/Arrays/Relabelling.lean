import TensorNetwork.Proofs.Arrays.ShapeRules
import TensorNetwork.Proofs.Operation.Equivalence

/-! The value of a contraction does not depend on the names of its labels. A renaming
that keeps the labels apart carries the assignments of the one contraction to those of
the other, and corresponding assignments select the same entries. -/
namespace TensorNetwork.Tensor
variable {α : Type} {f : Label → Label} {labels kept : List Label} {operands : List (Tensor α × List Label)}

/-- The same tensors with other labels on their axes. -/
def relabelled (f : Label → Label) (operands : List (Tensor α × List Label)) : List (Tensor α × List Label) :=
  operands.map fun operand => (operand.1, operand.2.map f)

theorem lookup_relabel {β : Type} {pairs : List (Label × β)} {label : Label}
    (apart : ∀ pair ∈ pairs, f label = f pair.1 → label = pair.1) :
    (pairs.map (Prod.map f id)).lookup (f label) = pairs.lookup label := by
  induction pairs with
  | nil => rfl
  | cons pair rest ih =>
    have later := ih fun other member => apart other (List.mem_cons_of_mem _ member)
    have same : (f label == f pair.1) = (label == pair.1) := by
      rw [Bool.eq_iff_iff, beq_iff_eq, beq_iff_eq]
      exact ⟨apart pair List.mem_cons_self, congrArg f⟩
    rw [List.map_cons, Prod.map, List.lookup_cons, later, same]
    rfl

section
variable (apart : ∀ a ∈ labels, ∀ b ∈ labels, f a = f b → a = b)
  (carried : ∀ operand ∈ operands, ∀ label ∈ operand.2, label ∈ labels)
include apart

theorem assignment_relabel {assigned : List Label} (among : ∀ label ∈ assigned, label ∈ labels)
    (values : List Nat) {label : Label} (held : label ∈ labels) :
    assignment (assigned.map f) values (f label) = assignment assigned values label := by
  rw [assignment, List.zip_map_left, lookup_relabel, assignment]
  exact fun pair member same => apart label held pair.1 (among _ (List.of_mem_zip member).1) same

include carried

theorem extent_relabel {label : Label} (held : label ∈ labels) :
    extent (relabelled f operands) (f label) = extent operands label := by
  have axes : (relabelled f operands).flatMap (fun operand => operand.2.zip operand.1.shape) =
      (operands.flatMap fun operand => operand.2.zip operand.1.shape).map (Prod.map f id) := by
    rw [relabelled, List.flatMap_map, List.map_flatMap]
    exact List.flatMap_congr fun operand _ => List.zip_map_left
  rw [extent, axes, lookup_relabel, extent]
  intro pair member same
  obtain ⟨operand, listed, axis⟩ := List.mem_flatMap.mp member
  exact apart label held pair.1 (carried operand listed _ (List.of_mem_zip axis).1) same

theorem extents_relabel {chosen : List Label} (among : ∀ label ∈ chosen, label ∈ labels) :
    (chosen.map f).map (extent (relabelled f operands)) = chosen.map (extent operands) := by
  rw [List.map_map]
  exact List.map_congr_left fun label member => extent_relabel apart carried (among label member)

theorem consistent_relabel : Consistent (relabelled f operands) ↔ Consistent operands := by
  rw [Consistent, relabelled, List.forall_mem_map]
  refine forall₂_congr fun operand member => ?_
  rw [← relabelled, extents_relabel apart carried (carried operand member)]

theorem summed_relabel (among : ∀ label ∈ kept, label ∈ labels) :
    summed (relabelled f operands) (kept.map f) = (summed operands kept).map f := by
  have all : (relabelled f operands).flatMap Prod.snd = (operands.flatMap Prod.snd).map f := by
    rw [relabelled, List.flatMap_map, List.map_flatMap]
  have inside : ∀ label ∈ operands.flatMap Prod.snd, label ∈ labels := by
    intro label member
    obtain ⟨operand, listed, axis⟩ := List.mem_flatMap.mp member
    exact carried operand listed label axis
  rw [summed, all, eraseDups_map fun a here b there => apart a (inside a here) b (inside b there), List.filter_map,
    summed]
  congr 1
  refine List.filter_congr fun label member => ?_
  have held := inside label (List.mem_eraseDups.mp member)
  have same : f label ∈ kept.map f ↔ label ∈ kept := by
    rw [List.mem_map]
    constructor
    · rintro ⟨other, listed, image⟩
      exact apart other (among other listed) label held image ▸ listed
    · exact fun listed => ⟨label, listed, rfl⟩
  exact decide_eq_decide.mpr (not_congr same)

/-- The value of a contraction is the same under every naming of its labels. -/
theorem einsum_relabel [CommSemiring α] (among : ∀ label ∈ kept, label ∈ labels) :
    einsum (relabelled f operands) (kept.map f) = einsum operands kept := by
  have traversed : ∀ (g : Label → Option Nat) (chosen : List Label),
      chosen.mapM g = (chosen.map g).mapM id := fun g chosen => by rw [List.mapM_map, Function.id_comp]
  have others : ∀ label ∈ summed operands kept, label ∈ labels := by
    intro label member
    obtain ⟨operand, listed, axis⟩ := List.mem_flatMap.mp (List.mem_eraseDups.mp (List.mem_of_mem_filter member))
    exact carried operand listed label axis
  have all : ∀ label ∈ kept ++ summed operands kept, label ∈ labels := fun label member =>
    (List.mem_append.mp member).elim (among label) (others label)
  have terms : ∀ values, term (relabelled f operands)
      (assignment ((kept ++ summed operands kept).map f) values) =
        term operands (assignment (kept ++ summed operands kept) values) := by
    intro values
    rw [term, relabelled, List.map_map, term]
    congr 1
    refine List.map_congr_left fun operand listed => ?_
    rw [Function.comp_apply, List.map_map]
    congr 1
    exact List.map_congr_left fun label axis =>
      assignment_relabel apart all values (carried operand listed label axis)
  simp only [einsum, consistent_relabel apart carried, summed_relabel apart carried among, traversed,
    extents_relabel apart carried among, extents_relabel apart carried others, ← List.map_append, terms]

end

/-- Tensors with consistent extents have a value. -/
theorem Consistent.einsum [CommSemiring α] (consistent : Consistent operands) (nonempty : operands ≠ [])
    (nodup : kept.Nodup) (bound : ∀ label ∈ kept, label ∈ operands.flatMap Prod.snd) :
    ∃ value, Tensor.einsum operands kept = some value := by
  have shaped : ∀ operand ∈ operands,
      operand.1.shape = operand.2.map fun label => (Tensor.extent operands label).getD 0 := by
    intro operand member
    have extents := congrArg (List.map fun found => found.getD 0) (consistent operand member)
    simpa [List.map_map, Function.comp_def] using extents.symm
  obtain ⟨value, found, -⟩ := (library_shapeRules Factoring.unit).einsum nonempty nodup shaped bound
  exact ⟨value, found⟩

end TensorNetwork.Tensor
