import TensorNetwork.Proofs.Outcome
import TensorNetwork.Shape.Table

/-! Reading and writing tables of shapes, over any extents. -/
namespace TensorNetwork.ShapeTable
variable {ε : Type} {table next : ShapeTable ε} {tensor : TensorId}

theorem ext_shapes (same : ∀ tensor, table.shapes.get? tensor = next.shapes.get? tensor) : table = next := by
  cases table
  cases next
  exact congrArg ShapeTable.mk (IntMap.ext_get? same)

theorem get?_assign (table : ShapeTable ε) (tensor other : TensorId) (shape : Shape ε) :
    (table.assign tensor shape).shapes.get? other =
      if tensor = other then some shape else table.shapes.get? other :=
  table.shapes.get?_insert tensor other shape

/-- Takes over the shapes that some tensors have in another table. -/
def adopt (table next : ShapeTable ε) (tensors : List TensorId) : ShapeTable ε :=
  tensors.foldl (fun table tensor => ((next.shapes.get? tensor).map (table.assign tensor)).getD table) table

theorem get?_adopt {tensors : List TensorId}
    (known : ∀ tensor ∈ tensors, ∃ shape, next.shapes.get? tensor = some shape) (other : TensorId) :
    (table.adopt next tensors).shapes.get? other =
      if other ∈ tensors then next.shapes.get? other else table.shapes.get? other := by
  induction tensors generalizing table with
  | nil => simp [adopt]
  | cons tensor rest ih =>
    obtain ⟨⟨shape, held⟩, others⟩ := List.forall_mem_cons.mp known
    rw [adopt, List.foldl_cons, held, ← adopt, ih others]
    simp only [Option.map_some, Option.getD_some, get?_assign]
    by_cases same : tensor = other
    · simp [← same, held]
    · simp [same, Ne.symm same]

/-- Writes shapes for several tensors, one after the other. -/
def assignAll (table : ShapeTable ε) (pairs : List (TensorId × Shape ε)) : ShapeTable ε :=
  pairs.foldl (fun table pair => table.assign pair.1 pair.2) table

/-- What is read after writing is what was written, or what was there before. -/
theorem get?_assignAll (pairs : List (TensorId × Shape ε)) (tensor : TensorId) :
    (tensor ∈ pairs.map Prod.fst ∧
        ∃ shape, ∀ table, (assignAll table pairs).shapes.get? tensor = some shape) ∨
      (tensor ∉ pairs.map Prod.fst ∧
        ∀ table, (assignAll table pairs).shapes.get? tensor = table.shapes.get? tensor) := by
  induction pairs with
  | nil => exact .inr ⟨by simp, fun _ => rfl⟩
  | cons pair rest ih =>
    rcases ih with ⟨member, shape, written⟩ | ⟨missing, kept⟩
    · exact .inl ⟨List.mem_cons_of_mem _ member, shape, fun table => written (table.assign pair.1 pair.2)⟩
    · have first : ∀ table, (assignAll table (pair :: rest)).shapes.get? tensor =
          if pair.1 = tensor then some pair.2 else table.shapes.get? tensor := fun table =>
        (kept (table.assign pair.1 pair.2)).trans (get?_assign table pair.1 tensor pair.2)
      by_cases same : pair.1 = tensor
      · exact .inl ⟨by simp [same], pair.2, fun table => by rw [first, if_pos same]⟩
      · refine .inr ⟨?_, fun table => by rw [first, if_neg same]⟩
        rw [List.map_cons, List.mem_cons, not_or]
        exact ⟨Ne.symm same, missing⟩

theorem shape_eq_ok {shape : Shape ε} : table.shape tensor = .ok shape ↔ table.shapes.get? tensor = some shape := by
  unfold ShapeTable.shape
  split <;> simp_all

theorem keptExtent_eq_ok {bound : IntMap ε} {label : Label} {a : ε}
    (found : keptExtent bound label = .ok a) : bound.get? label = some a := by
  unfold keptExtent at found
  split at found
  · cases found
    assumption
  · cases found

variable [ExtentAlgebra ε]

theorem freshShape_length (tensor : TensorId) (rank : Nat) :
    (freshShape tensor rank : Shape ε).length = rank := by
  simp [freshShape]

theorem use_known {shape : Shape ε} (known : table.shapes.get? tensor = some shape) :
    table.use tensor shape.length = .ok (shape, table) := by
  rw [use, known]
  exact if_pos rfl

/-- Labels are bound to extents of axes that carry them. -/
theorem bindAxes_bound {P : Label → ε → Prop} {axes : List (Label × ε)} {bound bound' : IntMap ε}
    (before : ∀ label a, bound.get? label = some a → P label a) (each : ∀ axis ∈ axes, P axis.1 axis.2)
    (run : axes.foldlM (bindAxis tensor) bound = .ok bound') :
    ∀ label a, bound'.get? label = some a → P label a := by
  refine Outcome.foldlM_induction (P := fun _ bound => ∀ label a, bound.get? label = some a → P label a)
    before ?_ run
  intro passed axis rest bound next split held bind label a found
  unfold bindAxis at bind
  split at bind
  · cases bind
    rw [IntMap.get?_insert] at found
    split at found
    · rename_i same
      cases found
      exact same ▸ each axis (by simp [split])
    · exact held label a found
  · split at bind
    · cases bind
    · cases bind
      exact held label a found

end TensorNetwork.ShapeTable
