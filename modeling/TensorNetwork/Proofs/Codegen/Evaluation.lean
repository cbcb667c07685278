import TensorNetwork.Codegen.Operation
import TensorNetwork.Proofs.Source.Execution

/-! The values of the expressions that are generated for an operation, where its
tensors are bound to arrays. -/
namespace TensorNetwork.Codegen
open Source Execution

variable {A : Type} {arrays : ArrayLibrary A} {env : Env A}

theorem mapM_int? (values : List Int) : values.mapM (Value.int? ∘ Value.int (A := A)) = some values := by
  induction values with
  | nil => rfl
  | cons value rest ih => simp [Value.int?, ih]

theorem mapM_int?_shape (shape : List Nat) :
    shape.mapM (Value.int? ∘ fun extent : Nat => Value.int (A := A) extent) = some (shape.map Nat.cast) := by
  induction shape with
  | nil => rfl
  | cons extent rest ih => simp [Value.int?, ih]

theorem mapM_extent? (shape : List Nat) :
    shape.mapM (Value.extent? ∘ fun extent : Nat => Value.int (A := A) extent) = some shape := by
  induction shape with
  | nil => rfl
  | cons extent rest ih =>
    have head : Value.extent? (Value.int (A := A) extent) = some extent := rfl
    simp [head, ih]

theorem eval_intTuple (values : List Int) :
    eval arrays env (intTuple values) = some (.tuple (values.map .int)) := by
  have items : evalAll arrays env (values.map .int) = some (values.map .int) := by
    induction values with
    | nil => rfl
    | cons value rest ih => simp [evalAll, eval, ih]
  simp [intTuple, eval, items]

/-- Every array that is known stands under the name of its tensor. -/
def Holds (env : Env A) (store : IntMap A) : Prop :=
  ∀ tensor a, store.get? tensor = some a → env (tensorName tensor) = some (.array a)

theorem evalArguments_operands {store : IntMap A} (holds : Holds env store) {operands : List Operand}
    {values : List (A × List Label)} (read : operands.mapM (ArrayLibrary.operand store) = some values)
    (kept : List Label) :
    ∃ passed, evalArguments arrays env (operands.flatMap operandArguments ++ [.positional (intTuple kept)]) =
      some passed ∧ operands? passed = some (values, kept) := by
  induction operands generalizing values with
  | nil =>
    cases read
    refine ⟨[(none, .tuple (kept.map .int))], ?_, ?_⟩
    · simp [evalArguments, evalArgument, eval_intTuple]
    · simp [operands?, mapM_int?]
  | cons operand rest ih =>
    simp only [List.mapM_cons, Option.bind_eq_bind, Option.bind_eq_some_iff] at read
    obtain ⟨value, first, others, later, same⟩ := read
    cases same
    obtain ⟨a, known, rfl⟩ := Option.map_eq_some_iff.mp first
    obtain ⟨passed, evaluated, parsed⟩ := ih later
    refine ⟨(none, .array a) :: (none, .tuple (operand.labels.map .int)) :: passed, ?_, ?_⟩
    · simp [operandArguments, evalArguments, evalArgument, tensorVar, eval, holds _ _ known, eval_intTuple,
        evaluated]
    · simp [operands?, mapM_int?, parsed]

theorem eval_contractionCall {store : IntMap A} (holds : Holds env store) {c : Contraction}
    {values : List (A × List Label)} {result : A}
    (read : c.operands.mapM (ArrayLibrary.operand store) = some values)
    (contracted : arrays.einsum values c.kept = some result) :
    eval arrays env (contractionCall c) = some (.array result) := by
  obtain ⟨passed, evaluated, parsed⟩ := @evalArguments_operands _ arrays _ _ holds _ _ read c.kept
  have name : library ++ "." ++ "einsum" = "np.einsum" := rfl
  simp [contractionCall, libraryCall, eval, evaluated, name, function, einsum, parsed, contracted]

theorem eval_transpositionCall {t : Transposition} {a result : A}
    (bound : env (tensorName t.input) = some (.array a))
    (transposed : arrays.transpose a t.permutation = some result) :
    eval arrays env (transpositionCall t) = some (.array result) := by
  have name : library ++ "." ++ "transpose" = "np.transpose" := rfl
  simp [transpositionCall, libraryCall, eval, evalArguments, evalArgument, tensorVar, bound, eval_intTuple, name,
    function, transpose, mapM_int?, transposed]

theorem position_ofNat (length n : Nat) : Value.position length n = n := by
  rw [Value.position, if_neg]
  omega

theorem between_upTo (items : List (Value A)) (n : Nat) :
    Value.between items none (some n) = items.take n := by
  simp [Value.between, position_ofNat]

theorem between_from (items : List (Value A)) (n : Nat) :
    Value.between items (some n) none = items.drop n := by
  simp [Value.between, position_ofNat]

section
variable {s : Split} {a : A} (bound : env (tensorName s.input) = some (.array a))
include bound

theorem eval_leftAxes :
    eval arrays env (leftAxes s) = some (.ofShape ((arrays.shape a).take s.left)) := by
  simp [leftAxes, shapeSlice, eval, evalBound, bound, field, Value.access, Value.ofShape, Value.int?,
    between_upTo, List.map_take]

theorem eval_rightAxes :
    eval arrays env (rightAxes s) = some (.ofShape ((arrays.shape a).drop s.left)) := by
  simp [rightAxes, shapeSlice, eval, evalBound, bound, field, Value.access, Value.ofShape, Value.int?,
    between_from, List.map_drop]

end

theorem eval_shapeItem {tensor : TensorId} {a : A} (bound : env (tensorName tensor) = some (.array a))
    (axis : Nat) {extent : Nat} (item : (arrays.shape a)[axis]? = some extent) :
    eval arrays env (shapeItem tensor axis) = some (.ofShape [extent]) := by
  simp [shapeItem, eval, evalAll, bound, field, Value.access, Value.ofShape, position_ofNat, item]

theorem eval_size {axes : Expr} {shape : List Nat} (evaluated : eval arrays env axes = some (.ofShape shape))
    (nonempty : shape ≠ []) : eval arrays env (size axes) = some (.int shape.prod) := by
  have name : library ++ "." ++ "prod" = "np.prod" := rfl
  obtain ⟨extent, rest, rfl⟩ := List.exists_cons_of_ne_nil nonempty
  simp [size, libraryCall, eval, evalArguments, evalArgument, evaluated, name, function, prod, Value.ofShape,
    Value.int?, mapM_int?_shape, Nat.cast_list_prod]

theorem eval_reshape {tensor : TensorId} {a result : A} {axes : Expr} {shape : List Nat}
    (bound : env (tensorName tensor) = some (.array a))
    (evaluated : eval arrays env axes = some (.ofShape shape))
    (reshaped : arrays.reshape a shape = some result) :
    eval arrays env (reshape tensor axes) = some (.array result) := by
  simp [reshape, eval, evalArguments, evalArgument, tensorVar, bound, evaluated, method, Value.ofShape,
    mapM_extent?, reshaped]

end TensorNetwork.Codegen
