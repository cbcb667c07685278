import TensorNetwork.Proofs.Arrays.Tensor
import TensorNetwork.Proofs.Shape.Constraints

/-! Shapes of arrays follow rules. Where arrays have shapes that meet the demands of
an operation, the operation is defined on them and its results have the shapes that
were demanded. -/
namespace TensorNetwork

/-- Which calls of a library are defined and which shapes their results have. The
shapes of reshaped arrays and of factors are laws of every library. -/
structure ArrayLibrary.ShapeRules {A : Type} (arrays : ArrayLibrary A) : Prop where
  einsum : ∀ {operands : List (A × List Label)} {kept : List Label} {extent : Label → Nat},
    operands ≠ [] → kept.Nodup → (∀ o ∈ operands, arrays.shape o.1 = o.2.map extent) →
    (∀ label ∈ kept, label ∈ operands.flatMap Prod.snd) →
    ∃ result, arrays.einsum operands kept = some result ∧ arrays.shape result = kept.map extent
  transpose : ∀ {a : A} {axes : List Int}, axes.Perm ((List.range (arrays.shape a).length).map Int.ofNat) →
    ∃ result, arrays.transpose a axes = some result ∧
      arrays.shape result = axes.map fun axis => (arrays.shape a).getD axis.toNat 0
  reshape : ∀ {a : A} {extents : List Nat},
    (∃ result, arrays.reshape a extents = some result) ↔ extents.prod = (arrays.shape a).prod
  qr : ∀ {a : A} {rows columns : Nat}, arrays.shape a = [rows, columns] →
    ∃ factors, arrays.qr a = some factors

theorem mapM_eq_map {α β : Type} {f : α → Option β} {g : α → β} {l : List α}
    (each : ∀ a ∈ l, f a = some (g a)) : l.mapM f = some (l.map g) := by
  induction l with
  | nil => rfl
  | cons a rest ih =>
    have others := ih fun b member => each b (List.mem_cons_of_mem _ member)
    simp [each a List.mem_cons_self, others]

namespace Tensor
variable {α : Type}

theorem extent_of_mem {operands : List (Tensor α × List Label)} {extent : Label → Nat}
    (shaped : ∀ o ∈ operands, o.1.shape = o.2.map extent) {label : Label}
    (member : label ∈ operands.flatMap Prod.snd) : Tensor.extent operands label = some (extent label) := by
  have axes : (operands.flatMap fun o => o.2.zip o.1.shape) =
      (operands.flatMap Prod.snd).map fun label => (label, extent label) := by
    rw [List.map_flatMap]
    refine List.flatMap_congr fun o held => ?_
    rw [shaped o held, List.map_prod_left_eq_zip]
  rw [Tensor.extent, axes]
  exact List.lookup_graph extent member

theorem library_shapeRules [CommSemiring α] (factoring : Factoring α) : (library factoring).ShapeRules where
  einsum {operands kept extent} _ _ shaped bound := by
    have labelled : ∀ label ∈ operands.flatMap Prod.snd, Tensor.extent operands label = some (extent label) :=
      fun label member => extent_of_mem shaped member
    have consistent : Consistent operands := by
      intro o member
      have axes : o.1.shape = o.2.map extent := shaped o member
      rw [axes, List.map_map]
      exact List.map_congr_left fun label held => labelled label (List.mem_flatMap_of_mem member held)
    have result : kept.mapM (Tensor.extent operands) = some (kept.map extent) :=
      mapM_eq_map fun label member => labelled label (bound label member)
    have ranges : (summed operands kept).mapM (Tensor.extent operands) = some ((summed operands kept).map extent) :=
      mapM_eq_map fun label member => labelled label (List.mem_eraseDups.mp (List.mem_of_mem_filter member))
    change ∃ result, Tensor.einsum operands kept = some result ∧ result.shape = kept.map extent
    rw [Tensor.einsum, if_pos consistent, result, ranges]
    exact ⟨_, rfl, rfl⟩
  transpose {a axes} order := ⟨_, if_pos order, rfl⟩
  reshape {a extents} := by
    change (∃ result, Tensor.reshape a extents = some result) ↔ extents.prod = a.shape.prod
    rw [Tensor.reshape]
    split <;> simp [*]
  qr {a rows columns} matrix := by
    have two : a.shape.length = 2 := congrArg List.length matrix
    exact ⟨_, if_pos two⟩

end Tensor

namespace ArrayLibrary
variable {A : Type} {arrays : ArrayLibrary A} {shape : TensorId → List Int} {store : IntMap A}

/-- The arrays of a store have the shapes of their tensors. -/
def Shaped (arrays : ArrayLibrary A) (shape : TensorId → List Int) (store : IntMap A) : Prop :=
  ∀ tensor a, store.get? tensor = some a → (arrays.shape a).map Nat.cast = shape tensor

theorem Shaped.insert (shaped : arrays.Shaped shape store) {tensor : TensorId} {a : A}
    (here : (arrays.shape a).map Nat.cast = shape tensor) : arrays.Shaped shape (store.insert tensor a) := by
  intro other b known
  rw [IntMap.get?_insert] at known
  split at known
  · rename_i same
    cases known
    rw [here, same]
  · exact shaped other b known

/-- Natural extents from integers that are the extents of an array. -/
theorem toNat_natCast (extents : List Nat) : (extents.map (Nat.cast : Nat → Int)).map Int.toNat = extents := by
  rw [List.map_map]
  exact (List.map_congr_left fun n _ => Int.toNat_natCast n).trans extents.map_id

theorem read_operands {operands : List Operand}
    (known : ∀ o ∈ operands, store.contains o.tensor = true) :
    ∃ values, operands.mapM (operand store) = some values ∧ values.map Prod.snd = operands.map Operand.labels ∧
      ∀ value ∈ values, ∃ o ∈ operands, store.get? o.tensor = some value.1 ∧ value.2 = o.labels := by
  induction operands with
  | nil => exact ⟨[], rfl, rfl, fun value member => nomatch member⟩
  | cons o rest ih =>
    obtain ⟨a, found⟩ := Option.isSome_iff_exists.mp (known o List.mem_cons_self)
    obtain ⟨values, read, labels, each⟩ := ih fun p member => known p (List.mem_cons_of_mem _ member)
    refine ⟨(a, o.labels) :: values, ?_, ?_, ?_⟩
    · simp [operand, found, read]
    · rw [List.map_cons, List.map_cons, labels]
    · intro value member
      rcases List.mem_cons.mp member with rfl | later
      · exact ⟨o, List.mem_cons_self, found, rfl⟩
      · obtain ⟨p, held, rest⟩ := each value later
        exact ⟨p, List.mem_cons_of_mem _ held, rest⟩

theorem contraction_shaped (rules : arrays.ShapeRules) {c : Contraction}
    (demands : (Operation.contraction c).WellShaped shape) (shaped : arrays.Shaped shape store)
    (known : ∀ tensor ∈ c.inputs, store.contains tensor = true) :
    ∃ next, arrays.step store (.contraction c) = some next ∧ arrays.Shaped shape next := by
  obtain ⟨extent, operands, bound, output⟩ := demands
  obtain ⟨values, read, labels, each⟩ :=
    read_operands fun o member => known o.tensor (List.mem_map_of_mem member)
  have nonempty : values ≠ [] := by
    intro none
    rw [none, List.map_nil, eq_comm, List.map_eq_nil_iff] at labels
    exact c.operands_nonempty labels
  have listed : values.flatMap Prod.snd = c.labels := by
    rw [List.flatMap_def, labels, Contraction.labels, List.flatMap_def]
  have axes : ∀ value ∈ values, (arrays.shape value.1).map Nat.cast = value.2.map extent := by
    intro value member
    obtain ⟨o, held, found, same⟩ := each value member
    rw [shaped o.tensor value.1 found, operands o held, same]
  -- An extent that some array has is not below zero.
  have natural : ∀ label ∈ c.kept, ((extent label).toNat : Int) = extent label := by
    intro label member
    have held := bound label member
    rw [← listed] at held
    obtain ⟨value, among, axis⟩ := List.mem_flatMap.mp held
    have image : extent label ∈ value.2.map extent := List.mem_map_of_mem axis
    rw [← axes value among] at image
    obtain ⟨n, -, same⟩ := List.mem_map.mp image
    rw [← same, Int.toNat_natCast]
  obtain ⟨result, contracted, produced⟩ :=
    @rules.einsum values c.kept (fun label => (extent label).toNat) nonempty c.kept_nodup
      (fun value member => by
        rw [← toNat_natCast (arrays.shape value.1), axes value member, List.map_map]
        rfl)
      (by rwa [listed])
  refine ⟨store.insert c.output result, ?_, shaped.insert ?_⟩
  · simp only [step, read, contracted, Option.bind_eq_bind, Option.bind_some]
  · rw [produced, output, List.map_map]
    exact List.map_congr_left natural

theorem transposition_shaped (rules : arrays.ShapeRules) {t : Transposition}
    (demands : (Operation.transposition t).WellShaped shape) (shaped : arrays.Shaped shape store)
    (known : store.contains t.input = true) :
    ∃ next, arrays.step store (.transposition t) = some next ∧ arrays.Shaped shape next := by
  obtain ⟨a, found⟩ := Option.isSome_iff_exists.mp known
  obtain ⟨rank, output⟩ := demands
  have extents := shaped t.input a found
  have sized : (arrays.shape a).length = t.rank := by rw [← rank, ← extents, List.length_map]
  obtain ⟨result, transposed, produced⟩ := @rules.transpose a t.permutation (by rw [sized]; exact t.permutation_perm)
  refine ⟨store.insert t.output result, ?_, shaped.insert ?_⟩
  · simp only [step, found, transposed, Option.bind_eq_bind, Option.bind_some]
  · rw [produced, output, ← extents, t.arrange_map, t.arrange_eq_map sized 0]

theorem split_defined (rules : arrays.ShapeRules) {s : Split} {a : A}
    (rank : (arrays.shape a).length = s.rank) :
    ∃ q r, arrays.split s a = some (q, r) ∧
      arrays.shape q = (arrays.shape a).take s.left ++
        [min ((arrays.shape a).take s.left).prod ((arrays.shape a).drop s.left).prod] ∧
      arrays.shape r = min ((arrays.shape a).take s.left).prod ((arrays.shape a).drop s.left).prod ::
        (arrays.shape a).drop s.left := by
  generalize left : (arrays.shape a).take s.left = rows
  generalize right : (arrays.shape a).drop s.left = columns
  have size : rows.prod * columns.prod = (arrays.shape a).prod := by
    rw [← left, ← right, List.prod_take_mul_prod_drop]
  obtain ⟨matrix, flattened⟩ : ∃ matrix, arrays.reshape a [rows.prod, columns.prod] = some matrix :=
    rules.reshape.mpr (by simpa using size)
  have flat := arrays.shape_reshape flattened
  obtain ⟨⟨q', r'⟩, factored⟩ := rules.qr flat
  obtain ⟨ofQ, ofR⟩ := arrays.shape_qr factored flat
  obtain ⟨q, restored⟩ : ∃ q, arrays.reshape q' (rows ++ [min rows.prod columns.prod]) = some q :=
    rules.reshape.mpr (by simp [ofQ])
  obtain ⟨r, restored'⟩ : ∃ r, arrays.reshape r' (min rows.prod columns.prod :: columns) = some r :=
    rules.reshape.mpr (by simp [ofR])
  refine ⟨q, r, ?_, arrays.shape_reshape restored, arrays.shape_reshape restored'⟩
  simp only [split, if_pos rank, left, right, flattened, factored, restored, restored', Option.bind_eq_bind,
    Option.bind_some]

theorem split_shaped (rules : arrays.ShapeRules) {s : Split}
    (demands : (Operation.split s).WellShaped shape) (shaped : arrays.Shaped shape store)
    (known : store.contains s.input = true) :
    ∃ next, arrays.step store (.split s) = some next ∧ arrays.Shaped shape next := by
  obtain ⟨a, found⟩ := Option.isSome_iff_exists.mp known
  obtain ⟨rank, ofQ, ofR⟩ := demands
  have extents := shaped s.input a found
  have sized : (arrays.shape a).length = s.rank := by rw [← rank, ← extents, List.length_map]
  obtain ⟨q, r, factored, shapeQ, shapeR⟩ := split_defined rules sized
  have bond : ((min ((arrays.shape a).take s.left).prod ((arrays.shape a).drop s.left).prod : Nat) : Int) =
      s.bond (shape s.input) := by
    rw [Split.bond, ← extents, ← List.map_take, ← List.map_drop, ← Nat.cast_list_prod, ← Nat.cast_list_prod]
    omega
  refine ⟨(store.insert s.q q).insert s.r r, ?_, (shaped.insert ?_).insert ?_⟩
  · simp only [step, found, factored, Option.bind_eq_bind, Option.bind_some]
  · rw [shapeQ, ofQ, List.map_append, List.map_singleton, bond, List.map_take, extents]
  · rw [shapeR, ofR, List.map_cons, bond, List.map_drop, extents]

/-- An operation is defined on arrays with the shapes that it demands. -/
theorem step_shaped (rules : arrays.ShapeRules) {op : Operation} (demands : op.WellShaped shape)
    (shaped : arrays.Shaped shape store) (known : ∀ tensor ∈ op.inputs, store.contains tensor = true) :
    ∃ next, arrays.step store op = some next ∧ arrays.Shaped shape next := by
  cases op with
  | contraction c => exact contraction_shaped rules demands shaped known
  | transposition t => exact transposition_shaped rules demands shaped (known t.input List.mem_cons_self)
  | split s => exact split_shaped rules demands shaped (known s.input List.mem_cons_self)
  | foreign f => exact demands.elim

end ArrayLibrary
end TensorNetwork
