import TensorNetwork.Proofs.Extent.Term
import TensorNetwork.Proofs.Names
import TensorNetwork.Proofs.Shape.Instance

/-! Shapes worked out with symbols hold for all integers that the symbols may stand
for. Where the shapes of the inputs are instances of the given ones and can be
worked out, so can the symbolic shapes, and the results are instances again. -/
namespace TensorNetwork

/-- The last entry for a tensor is the one that counts. -/
def lastEntry {α : Type} (pairs : List (TensorId × α)) (tensor : TensorId) : Option α :=
  (pairs.reverse.find? fun pair => pair.1 = tensor).map Prod.snd

theorem lastEntry_map {α β : Type} (f : α → β) (pairs : List (TensorId × α)) (tensor : TensorId) :
    lastEntry (pairs.map fun pair => (pair.1, f pair.2)) tensor = (lastEntry pairs tensor).map f := by
  rw [lastEntry, ← List.map_reverse, List.find?_map, lastEntry, Option.map_map, Option.map_map]
  rfl

theorem IntMap.get?_ofList {α : Type} (pairs : List (Int × α)) (key : Int) :
    (IntMap.ofList pairs).get? key = lastEntry pairs key := by
  have general : ∀ m : IntMap α, (pairs.foldl (fun m pair => m.insert pair.1 pair.2) m).get? key =
      (lastEntry pairs key).or (m.get? key) := by
    induction pairs with
    | nil => intro m; rfl
    | cons pair rest ih =>
      intro m
      rw [List.foldl_cons, ih, IntMap.get?_insert]
      simp only [lastEntry, List.reverse_cons, List.find?_append, List.find?_singleton]
      cases found : rest.reverse.find? fun pair => pair.1 = key with
      | some later => simp
      | none => by_cases same : pair.1 = key <;> simp [same]
  simpa [ofList] using general .empty

namespace ShapeTable

/-- Shapes of dimensions, as they are handed over. -/
def handedOver (shapes : List (TensorId × List Dimension)) : GivenShapes Extent :=
  shapes.map fun entry => (entry.1, entry.2.map Dimension.given)

def integral (shapes : List (TensorId × List Int)) : List (TensorId × List Dimension) :=
  shapes.map fun entry => (entry.1, entry.2.map .integer)

theorem ofGiven_handedOver (shapes : List (TensorId × List Dimension)) :
    ofGiven (handedOver shapes) =
      .ok ⟨.ofList (shapes.map fun entry => (entry.1, entry.2.map Dimension.extent))⟩ := by
  rw [ofGiven, Outcome.bind_eq_ok]
  refine ⟨_, ?_, rfl⟩
  rw [Outcome.mapM_eq_ok, handedOver, List.forall₂_map_left_iff, List.forall₂_map_right_iff, List.forall₂_same]
  intro entry _
  refine Outcome.bind_eq_ok.mpr ⟨entry.2.map Dimension.extent, ?_, rfl⟩
  rw [Outcome.mapM_eq_ok, List.forall₂_map_left_iff, List.forall₂_map_right_iff, List.forall₂_same]
  exact fun d _ => d.toExtent_given

/-- The shape that a table starts with. -/
theorem get?_handedOver {shapes : List (TensorId × List Dimension)} {table : ShapeTable Extent}
    (given : ofGiven (handedOver shapes) = .ok table) (tensor : TensorId) :
    table.shapes.get? tensor = (lastEntry shapes tensor).map (List.map Dimension.extent) := by
  rw [ofGiven_handedOver] at given
  cases given
  rw [IntMap.get?_ofList, lastEntry_map]

/-- Integer shapes that a valuation makes of the given ones. A tensor without a
given shape has the symbols that would be invented for it. -/
def Instantiates (v : String → Int) (shapes : List (TensorId × List Dimension))
    (integers : List (TensorId × List Int)) (tensors : List TensorId) : Prop :=
  ∀ tensor ∈ tensors, ∃ extents, lastEntry integers tensor = some extents ∧
    match lastEntry shapes tensor with
    | some dimensions => extents = dimensions.map (Dimension.value v)
    | none => extents = (List.range extents.length).map fun axis => v (freshName tensor axis)

theorem matches_of_instantiates {v : String → Int} {shapes : List (TensorId × List Dimension)}
    {integers : List (TensorId × List Int)} {tensors : List TensorId} {symbolic concrete : ShapeTable Extent}
    (instantiates : Instantiates v shapes integers tensors)
    (general : ofGiven (handedOver shapes) = .ok symbolic)
    (given : ofGiven (handedOver (integral integers)) = .ok concrete) {tensor : TensorId}
    (member : tensor ∈ tensors) : Matches v symbolic concrete tensor := by
  obtain ⟨extents, entry, values⟩ := instantiates tensor member
  have concreteShape : concrete.shapes.get? tensor = some (extents.map Extent.ofInt) := by
    rw [get?_handedOver given, integral, lastEntry_map, entry]
    simp [Function.comp_def, Dimension.extent]
  have symbolicShape := get?_handedOver general tensor
  cases known : lastEntry shapes tensor with
  | some dimensions =>
    simp only [known] at values
    simp only [known, Option.map_some] at symbolicShape
    refine .inl ⟨_, symbolicShape, ?_, ?_⟩
    · intro a held
      obtain ⟨d, -, rfl⟩ := List.mem_map.mp held
      exact d.proper_extent
    · rw [concreteShape, values, Shape.evaluate]
      simp [Function.comp_def, Dimension.value_extent]
  | none =>
    simp only [known] at values
    simp only [known, Option.map_none] at symbolicShape
    refine .inr ⟨symbolicShape, extents.length, ?_⟩
    rw [concreteShape]
    refine congrArg some ?_
    conv_lhs => rw [values]
    simp [Shape.evaluate, freshShape, freshSymbol_eq, Function.comp_def]

/-- Different axes have different symbols, so their extents can be chosen freely. -/
theorem exists_valuation (extent : TensorId → Nat → Int) :
    ∃ v : String → Int, ∀ tensor axis, v (freshName tensor axis) = extent tensor axis := by
  have injective : Function.Injective fun place : TensorId × Nat => freshName place.1 place.2 := by
    intro a b same
    obtain ⟨tensors, axes⟩ := freshName_injective same
    exact Prod.ext tensors axes
  refine ⟨Function.extend (fun place : TensorId × Nat => freshName place.1 place.2)
    (fun place => extent place.1 place.2) 0, fun tensor axis => ?_⟩
  exact injective.extend_apply _ _ (tensor, axis)

theorem instantiates_freely (integers : List (TensorId × List Int)) (tensors : List TensorId)
    (covered : ∀ tensor ∈ tensors, ∃ extents, lastEntry integers tensor = some extents) :
    ∃ v, Instantiates v [] integers tensors := by
  obtain ⟨v, chosen⟩ := exists_valuation fun tensor axis => ((lastEntry integers tensor).getD []).getD axis 0
  refine ⟨v, fun tensor member => ?_⟩
  obtain ⟨extents, entry⟩ := covered tensor member
  refine ⟨extents, entry, ?_⟩
  change extents = (List.range extents.length).map fun axis => v (freshName tensor axis)
  apply List.ext_getElem
  · simp
  · intro axis left right
    simp [chosen, entry, left]

/-- Symbolic shapes are right for every valuation, no program that has shapes is
refused for want of numbers, and invented symbols leave every choice open. -/
theorem infer_sound_for_valuations {p : Program} {table : SymbolTable}
    (accepted : SymbolTable.ofProgram p = .ok table) :
    (∀ (shapes : List (TensorId × List Dimension)) (v : String → Int)
        (integers : List (TensorId × List Int)) (concrete : ShapeTable Extent),
      Instantiates v shapes integers table.inputs →
      infer p (handedOver (integral integers)) = .ok concrete →
      ∃ symbolic, infer p (handedOver shapes) = .ok symbolic ∧
        ∀ tensor, table.contains tensor = true → ∃ shape, symbolic.shape tensor = .ok shape ∧
          concrete.shape tensor = .ok (shape.map fun a => .ofInt (a.value v))) ∧
    (∀ (integers : List (TensorId × List Int)) (concrete : ShapeTable Extent),
      (∀ tensor ∈ table.inputs, ∃ extents, lastEntry integers tensor = some extents) →
      infer p (handedOver (integral integers)) = .ok concrete →
      ∃ v, Instantiates v [] integers table.inputs) ∧
    (∀ s t i j, freshName s i = freshName t j → s = t ∧ i = j) := by
  obtain ⟨-, single, described⟩ := SymbolTable.ofProgram_eq_ok.mp accepted
  refine ⟨?_, ?_, fun s t i j same => freshName_injective same⟩
  · intro shapes v integers concrete instantiates run
    obtain ⟨start, given, run⟩ := Outcome.bind_eq_ok.mp run
    have general := ofGiven_handedOver shapes
    obtain ⟨symbolic, done, settled⟩ := run_follows single
      (fun tensor used made => matches_of_instantiates instantiates general given
        ((SymbolTable.mem_inputs described).mpr ⟨used, made⟩)) run
    refine ⟨symbolic, Outcome.bind_eq_ok.mpr ⟨_, general, done⟩, fun tensor known => ?_⟩
    obtain ⟨shape, shown, -, instanced⟩ := settled tensor (SymbolTable.mentioned_of_contains described known)
    exact ⟨shape, shape_eq_ok.mpr shown, shape_eq_ok.mpr instanced⟩
  · intro integers _ covered _
    exact instantiates_freely integers table.inputs covered

/-- A tensor of rank three is split after two axes, and the factors are joined again. -/
def splitAndJoin : Program :=
  ⟨[.split ⟨0, 3, 2, 1, 2, by decide, by decide⟩,
    .contraction ⟨[⟨1, [0, 1, 2]⟩, ⟨2, [2, 3]⟩], [0, 1, 3], 3, by decide, by decide, by decide⟩]⟩

theorem infer_sound_for_valuations_splitAndJoin :
    ∃ symbolic shape,
      infer splitAndJoin (handedOver [(0, [.name "a", .term (.least (.symbol "a") [.int 6]), .integer 4])]) =
        .ok symbolic ∧
      symbolic.shape 3 = .ok shape ∧ shape.map (Extent.value fun _ => 2) = [2, 2, 4] := by
  have accepted : SymbolTable.ofProgram splitAndJoin =
      .ok ⟨.ofList [(0, ⟨true, false⟩), (1, ⟨false, false⟩), (2, ⟨false, false⟩), (3, ⟨false, true⟩)]⟩ := rfl
  have run : infer splitAndJoin (handedOver (integral [(0, [2, 2, 4])])) =
      .ok ⟨.ofList [(0, [.ofInt 2, .ofInt 2, .ofInt 4]), (1, [.ofInt 2, .ofInt 2, .ofInt 4]),
        (2, [.ofInt 4, .ofInt 4]), (3, [.ofInt 2, .ofInt 2, .ofInt 4])]⟩ := rfl
  obtain ⟨symbolic, inferred, sound⟩ := (infer_sound_for_valuations accepted).1
    [(0, [.name "a", .term (.least (.symbol "a") [.int 6]), .integer 4])] (fun _ => 2) [(0, [2, 2, 4])] _
    (by
      intro tensor member
      rw [List.mem_singleton.mp member]
      exact ⟨[2, 2, 4], rfl, rfl⟩) run
  obtain ⟨shape, known, instanced⟩ := sound 3 rfl
  refine ⟨symbolic, shape, inferred, known, ?_⟩
  have values := congrArg (Except.map (List.map (Extent.value fun _ => 2))) instanced
  simpa [Except.map, ShapeTable.shape, IntMap.get?_ofList, lastEntry, Function.comp_def] using values.symm

end ShapeTable
end TensorNetwork
