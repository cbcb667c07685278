import Mathlib.Algebra.BigOperators.Ring.Finset
import TensorNetwork.Proofs.SingleAssignment

/-! The meaning of operations in terms of a library of arrays. The kind of arrays
is left open: only their shapes are looked at here. -/
namespace TensorNetwork

structure ArrayLibrary (A : Type) where
  shape : A → List Nat
  /-- Arrays with a label for each axis are multiplied and summed over the labels
  that are not kept. -/
  einsum : List (A × List Label) → List Label → Option A
  transpose : A → List Int → Option A
  reshape : A → List Nat → Option A
  qr : A → Option (A × A)
  shape_reshape : ∀ {a b extents}, reshape a extents = some b → shape b = extents
  reshape_shape : ∀ a, reshape a (shape a) = some a
  shape_qr : ∀ {a q r rows columns}, qr a = some (q, r) → shape a = [rows, columns] →
    shape q = [rows, min rows columns] ∧ shape r = [min rows columns, columns]

namespace ArrayLibrary
variable {A : Type} (arrays : ArrayLibrary A)

/-- An array is flattened to a matrix, and the axes are given back to its factors. -/
def split (s : Split) (a : A) : Option (A × A) :=
  if (arrays.shape a).length = s.rank then do
    let left := (arrays.shape a).take s.left
    let right := (arrays.shape a).drop s.left
    let bond := min left.prod right.prod
    let matrix ← arrays.reshape a [left.prod, right.prod]
    let factors ← arrays.qr matrix
    let q ← arrays.reshape factors.1 (left ++ [bond])
    let r ← arrays.reshape factors.2 (bond :: right)
    some (q, r)
  else none

def operand (store : IntMap A) (operand : Operand) : Option (A × List Label) :=
  (store.get? operand.tensor).map (·, operand.labels)

/-- The arrays that are known after an operation. -/
def step (store : IntMap A) : Operation → Option (IntMap A)
  | .contraction c => do
      let operands ← c.operands.mapM (operand store)
      let value ← arrays.einsum operands c.kept
      some (store.insert c.output value)
  | .transposition t => do
      let value ← arrays.transpose (← store.get? t.input) t.permutation
      some (store.insert t.output value)
  | .split s => do
      let factors ← arrays.split s (← store.get? s.input)
      some ((store.insert s.q factors.1).insert s.r factors.2)
  | .foreign _ => none

/-- The arrays of all tensors of a program that starts from given ones. -/
def evaluate (p : Program) (store : IntMap A) : Option (IntMap A) :=
  p.operations.foldlM arrays.step store

variable {arrays}

/-- What a split did: the matrix that it factored, and how the factors were unflattened. -/
theorem split_eq_some {s : Split} {a q r : A} (done : arrays.split s a = some (q, r)) :
    (arrays.shape a).length = s.rank ∧
    ∃ rows columns matrix q' r', rows = ((arrays.shape a).take s.left).prod ∧
      columns = ((arrays.shape a).drop s.left).prod ∧ arrays.reshape a [rows, columns] = some matrix ∧
      arrays.qr matrix = some (q', r') ∧
      arrays.shape q' = [rows, min rows columns] ∧ arrays.shape r' = [min rows columns, columns] ∧
      arrays.reshape q' ((arrays.shape a).take s.left ++ [min rows columns]) = some q ∧
      arrays.reshape r' (min rows columns :: (arrays.shape a).drop s.left) = some r := by
  unfold split at done
  split at done
  · rename_i rank
    simp only [Option.bind_eq_bind, Option.bind_eq_some_iff] at done
    obtain ⟨matrix, flattened, ⟨q', r'⟩, factored, left, restored, right, restored', same⟩ := done
    cases same
    obtain ⟨rows, columns⟩ := arrays.shape_qr factored (arrays.shape_reshape flattened)
    exact ⟨rank, _, _, matrix, q', r', rfl, rfl, flattened, factored, rows, columns, restored, restored'⟩
  · cases done

/-- Operations change nothing but what they produce. -/
theorem step_frame {store next : IntMap A} {op : Operation} (stepped : arrays.step store op = some next)
    {tensor : TensorId} (other : tensor ∉ op.outputs) : next.get? tensor = store.get? tensor := by
  cases op with
  | contraction c =>
    simp only [step, Option.bind_eq_bind, Option.bind_eq_some_iff] at stepped
    obtain ⟨_, -, _, -, same⟩ := stepped
    cases same
    rw [IntMap.get?_insert, if_neg fun same => other (by simp [Operation.outputs, same])]
  | transposition t =>
    simp only [step, Option.bind_eq_bind, Option.bind_eq_some_iff] at stepped
    obtain ⟨_, -, _, -, same⟩ := stepped
    cases same
    rw [IntMap.get?_insert, if_neg fun same => other (by simp [Operation.outputs, same])]
  | split s =>
    simp only [step, Option.bind_eq_bind, Option.bind_eq_some_iff] at stepped
    obtain ⟨_, -, _, -, same⟩ := stepped
    cases same
    rw [IntMap.get?_insert, if_neg fun same => other (by simp [Operation.outputs, same]),
      IntMap.get?_insert, if_neg fun same => other (by simp [Operation.outputs, same])]
  | foreign f => cases stepped

/-- Operations define what they produce and forget nothing. -/
theorem step_contains {store next : IntMap A} {op : Operation} (stepped : arrays.step store op = some next)
    {tensor : TensorId} (known : store.contains tensor = true ∨ tensor ∈ op.outputs) :
    next.contains tensor = true := by
  have grown : ∀ {store : IntMap A} {output : TensorId} {a : A},
      store.contains tensor = true ∨ tensor = output → (store.insert output a).contains tensor = true := by
    intro store output a known
    rw [IntMap.contains, IntMap.get?_insert]
    split
    · rfl
    · rename_i apart
      exact known.resolve_right fun same => apart same.symm
  cases op with
  | contraction c =>
    simp only [step, Option.bind_eq_bind, Option.bind_eq_some_iff] at stepped
    obtain ⟨_, -, _, -, same⟩ := stepped
    cases same
    exact grown (known.imp_right List.mem_singleton.mp)
  | transposition t =>
    simp only [step, Option.bind_eq_bind, Option.bind_eq_some_iff] at stepped
    obtain ⟨_, -, _, -, same⟩ := stepped
    cases same
    exact grown (known.imp_right List.mem_singleton.mp)
  | split s =>
    simp only [step, Option.bind_eq_bind, Option.bind_eq_some_iff] at stepped
    obtain ⟨_, -, _, -, same⟩ := stepped
    cases same
    rcases known with old | output
    · exact grown (.inl (grown (.inl old)))
    · rcases List.mem_cons.mp output with q | r
      · exact grown (.inl (grown (.inr q)))
      · exact grown (.inr (List.mem_singleton.mp r))
  | foreign f => cases stepped

theorem run_contains {ops : List Operation} {store final : IntMap A}
    (run : ops.foldlM arrays.step store = some final) {tensor : TensorId}
    (known : store.contains tensor = true ∨ tensor ∈ produced ops) : final.contains tensor = true := by
  induction ops generalizing store with
  | nil =>
    cases run
    exact known.resolve_right (by simp [produced])
  | cons op rest ih =>
    rw [List.foldlM_cons, Option.bind_eq_bind, Option.bind_eq_some_iff] at run
    obtain ⟨next, stepped, run⟩ := run
    refine ih run ?_
    rcases known with old | made
    · exact .inl (step_contains stepped (.inl old))
    · have parts : tensor ∈ op.outputs ++ produced rest := made
      rcases List.mem_append.mp parts with here | later
      · exact .inl (step_contains stepped (.inr here))
      · exact .inr later

theorem exists_read {store : IntMap A} {tensors : List TensorId}
    (known : ∀ tensor ∈ tensors, ∃ a, store.get? tensor = some a) :
    ∃ values, tensors.mapM store.get? = some values := by
  induction tensors with
  | nil => exact ⟨[], rfl⟩
  | cons tensor rest ih =>
    obtain ⟨a, first⟩ := known tensor List.mem_cons_self
    obtain ⟨values, others⟩ := ih fun t member => known t (List.mem_cons_of_mem _ member)
    exact ⟨a :: values, by simp [first, others]⟩

end ArrayLibrary
end TensorNetwork
