import TensorNetwork.Proofs.Arrays.Tensor
import TensorNetwork.Proofs.Codegen.Evaluation
import TensorNetwork.Proofs.Codegen.Scaffold
import TensorNetwork.Proofs.Names

/-! Generated code computes what a program means. After the statements of an
operation, the arrays known to the program stand under the names of their
tensors; so in the end the outputs are returned. -/
namespace TensorNetwork.Codegen
open Source Execution

variable {A : Type} {arrays : ArrayLibrary A} {env : Env A} {ε : Type} [ExtentAlgebra ε]
  {shapes : Option (ShapeTable ε)}

@[simp] theorem set_same (env : Env A) (tensor : TensorId) (value : Value A) :
    env.set (tensorName tensor) value (tensorName tensor) = some value := by
  simp [Env.set]

theorem set_other (env : Env A) {tensor other : TensorId} (apart : tensor ≠ other) (value : Value A) :
    env.set (tensorName tensor) value (tensorName other) = env (tensorName other) := by
  have names : tensorName tensor ≠ tensorName other := fun same => apart (tensorName_injective same)
  simp [Env.set, names]

theorem set_bound {name : String} {value : Value A} (bound : env name = some value) :
    env.set name value = env := by
  funext other
  by_cases same : name = other
  · simp [Env.set, ← same, bound]
  · simp [Env.set, same]

theorem Holds.set {store : IntMap A} (holds : Holds env store) (tensor : TensorId) (a : A) :
    Holds (env.set (tensorName tensor) (.array a)) (store.insert tensor a) := by
  intro other b known
  rw [IntMap.get?_insert] at known
  split at known
  · rename_i same
    subst same
    cases known
    exact set_same ..
  · rename_i apart
    rw [set_other env apart]
    exact holds other b known

theorem execAll_append {first rest : List Statement} {next : Env A}
    (done : execAll arrays env first = some (.next next)) :
    execAll arrays env (first ++ rest) = execAll arrays next rest := by
  induction first generalizing env with
  | nil =>
    cases done
    rfl
  | cons statement others ih =>
    simp only [List.cons_append, execAll, Option.bind_eq_bind] at done ⊢
    cases ran : exec arrays env statement with
    | none => simp [ran] at done
    | some flow =>
      cases flow with
      | next middle => simpa [ran] using ih (by simpa [ran] using done)
      | returned value => simp [ran] at done

/-- An assignment has the same effect whatever is remarked on it. -/
theorem execAll_assign {tensor : TensorId} {value : Expr} {statement : Statement} {result : Value A}
    (generated : assign shapes tensor value = .ok statement)
    (evaluated : eval arrays env value = some result) :
    execAll arrays env [statement] = some (.next (env.set (tensorName tensor) result)) := by
  obtain ⟨comment, -, rfl⟩ := Outcome.map_eq_ok.mp generated
  simp [execAll, exec, evaluated, Env.assign]

theorem assign_pair (env : Env A) (first second : String) (a b : Value A) :
    env.assign (.tuple [.var first, .var second]) (.tuple [a, b]) = some ((env.set first a).set second b) := rfl

/-- A single axis is as large as all of its side. -/
theorem eq_singleton_prod {axes : List Nat} (single : axes.length = 1) : axes = [axes.prod] := by
  obtain ⟨extent, rfl⟩ := List.length_eq_one_iff.mp single
  simp

theorem length_left {s : Split} {axes : List Nat} (rank : axes.length = s.rank) :
    (axes.take s.left).length = s.left := by
  have := s.left_lt
  rw [List.length_take]
  omega

theorem length_right {s : Split} {axes : List Nat} (rank : axes.length = s.rank) :
    (axes.drop s.left).length = s.right := by
  rw [List.length_drop, rank, Split.right]

section
variable {s : Split} {a : A} (bound : env (tensorName s.input) = some (.array a))
  (rank : (arrays.shape a).length = s.rank)
include bound rank

theorem eval_splitMatrix {matrix : A} (flattened : arrays.reshape a
      [((arrays.shape a).take s.left).prod, ((arrays.shape a).drop s.left).prod] = some matrix) :
    eval arrays env (splitMatrix s) = some (.array matrix) := by
  have leftLength := length_left rank
  have rightLength := length_right rank
  have leftPos := s.left_pos
  have rightPos : 1 ≤ s.right := Nat.sub_pos_of_lt s.left_lt
  have sides : s.left + s.right = s.rank := Nat.add_sub_of_le s.left_lt.le
  unfold splitMatrix
  split
  · -- A matrix is flattened to itself.
    have left : ((arrays.shape a).take s.left).length = 1 := by omega
    have right : ((arrays.shape a).drop s.left).length = 1 := by omega
    have whole : [((arrays.shape a).take s.left).prod, ((arrays.shape a).drop s.left).prod] = arrays.shape a := by
      conv_rhs => rw [← List.take_append_drop s.left (arrays.shape a), eq_singleton_prod left,
        eq_singleton_prod right]
      rfl
    rw [whole, arrays.reshape_shape] at flattened
    cases flattened
    exact bound
  · have left : (arrays.shape a).take s.left ≠ [] := List.length_pos_iff.mp (by omega)
    have right : (arrays.shape a).drop s.left ≠ [] := List.length_pos_iff.mp (by omega)
    refine eval_reshape bound ?_ flattened
    simp [eval, evalAll, eval_size (eval_leftAxes bound) left, eval_size (eval_rightAxes bound) right,
      Value.ofShape]

theorem eval_splitCall {matrix q r : A} (flattened : arrays.reshape a
      [((arrays.shape a).take s.left).prod, ((arrays.shape a).drop s.left).prod] = some matrix)
    (factored : arrays.qr matrix = some (q, r)) :
    eval arrays env (splitCall s) = some (.tuple [.array q, .array r]) := by
  have name : library ++ "." ++ "linalg.qr" = "np.linalg.qr" := rfl
  simp [splitCall, libraryCall, eval, evalArguments, evalArgument, eval_splitMatrix bound rank flattened,
    name, function, qr, factored]

theorem execAll_restoreLeft {part : List Statement} {q q' : A} {bond : Nat}
    (generated : restoreLeft shapes s = .ok part) (factor : env (tensorName s.q) = some (.array q'))
    (matrix : arrays.shape q' = [((arrays.shape a).take s.left).prod, bond])
    (restored : arrays.reshape q' ((arrays.shape a).take s.left ++ [bond]) = some q) :
    execAll arrays env part = some (.next (env.set (tensorName s.q) (.array q))) := by
  have leftLength := length_left rank
  have leftPos := s.left_pos
  unfold restoreLeft at generated
  split at generated
  · obtain ⟨statement, assigned, rfl⟩ := Outcome.map_eq_ok.mp generated
    refine execAll_assign assigned (eval_reshape factor ?_ restored)
    have item : eval arrays env (shapeItem s.q 1) = some (.ofShape [bond]) :=
      eval_shapeItem factor 1 (by rw [matrix]; rfl)
    simp [eval, eval_leftAxes bound, item, Value.add, Value.ofShape]
  · -- The only axis on the left is the row of the factor already.
    cases generated
    have left : ((arrays.shape a).take s.left).length = 1 := by omega
    rw [eq_singleton_prod left, List.singleton_append, ← matrix, arrays.reshape_shape] at restored
    cases restored
    rw [set_bound factor]
    rfl

theorem execAll_restoreRight {part : List Statement} {r r' : A} {bond : Nat}
    (generated : restoreRight shapes s = .ok part) (factor : env (tensorName s.r) = some (.array r'))
    (matrix : arrays.shape r' = [bond, ((arrays.shape a).drop s.left).prod])
    (restored : arrays.reshape r' (bond :: (arrays.shape a).drop s.left) = some r) :
    execAll arrays env part = some (.next (env.set (tensorName s.r) (.array r))) := by
  have rightLength := length_right rank
  have rightPos : 1 ≤ s.right := Nat.sub_pos_of_lt s.left_lt
  unfold restoreRight at generated
  split at generated
  · obtain ⟨statement, assigned, rfl⟩ := Outcome.map_eq_ok.mp generated
    refine execAll_assign assigned (eval_reshape factor ?_ restored)
    have item : eval arrays env (shapeItem s.r 0) = some (.ofShape [bond]) :=
      eval_shapeItem factor 0 (by rw [matrix]; rfl)
    simp [eval, eval_rightAxes bound, item, Value.add, Value.ofShape]
  · cases generated
    have right : ((arrays.shape a).drop s.left).length = 1 := by omega
    rw [eq_singleton_prod right, ← matrix, arrays.reshape_shape] at restored
    cases restored
    rw [set_bound factor]
    rfl

end

/-- Both factors are bound as matrices, and then each gets its axes back. -/
theorem split_stages (shapes : Option (ShapeTable ε)) {s : Split} {a q r : A} (nodup : s.q ≠ s.r) (left : s.input ≠ s.q)
    (right : s.input ≠ s.r) (bound : env (tensorName s.input) = some (.array a))
    (factored : arrays.split s a = some (q, r)) :
    ∃ q' r' bond, bond = min ((arrays.shape a).take s.left).prod ((arrays.shape a).drop s.left).prod ∧
      eval arrays env (splitCall s) = some (.tuple [.array q', .array r']) ∧
      arrays.shape q' = [((arrays.shape a).take s.left).prod, bond] ∧
      arrays.shape r' = [bond, ((arrays.shape a).drop s.left).prod] ∧
      arrays.shape q = (arrays.shape a).take s.left ++ [bond] ∧
      let both := (env.set (tensorName s.q) (.array q')).set (tensorName s.r) (.array r')
      let restored := both.set (tensorName s.q) (.array q)
      (∀ part, restoreLeft shapes s = .ok part → execAll arrays both part = some (.next restored)) ∧
      ∀ part, restoreRight shapes s = .ok part →
        execAll arrays restored part = some (.next (restored.set (tensorName s.r) (.array r))) := by
  obtain ⟨rank, _, _, matrix, q', r', rfl, rfl, flattened, factors, shape, shape', ofQ, ofR⟩ :=
    ArrayLibrary.split_eq_some factored
  refine ⟨q', r', _, rfl, eval_splitCall bound rank flattened factors, shape, shape',
    arrays.shape_reshape ofQ, ?_⟩
  intro both restored
  have input : both (tensorName s.input) = some (.array a) := by
    simp [both, set_other _ right.symm, set_other _ left.symm, bound]
  have qBound : both (tensorName s.q) = some (.array q') := by
    simp [both, set_other _ nodup.symm]
  have input' : restored (tensorName s.input) = some (.array a) := by
    simp [restored, set_other _ left.symm, input]
  have rBound : restored (tensorName s.r) = some (.array r') := by
    simp [restored, both, set_other _ nodup]
  exact ⟨fun part generated => execAll_restoreLeft input rank generated qBound shape ofQ,
    fun part generated => execAll_restoreRight input' rank generated rBound shape' ofR⟩

/-- The matrices that were bound in between are forgotten. -/
theorem Holds.split {store : IntMap A} (holds : Holds env store) (s : Split) (q' r' q r : A) :
    Holds ((((env.set (tensorName s.q) (.array q')).set (tensorName s.r) (.array r')).set
      (tensorName s.q) (.array q)).set (tensorName s.r) (.array r)) ((store.insert s.q q).insert s.r r) := by
  intro tensor b held
  rw [IntMap.get?_insert, IntMap.get?_insert] at held
  by_cases isR : s.r = tensor
  · rw [if_pos isR] at held
    cases held
    rw [← isR, set_same]
  · rw [if_neg isR] at held
    rw [set_other _ isR]
    by_cases isQ : s.q = tensor
    · rw [if_pos isQ] at held
      cases held
      rw [← isQ, set_same]
    · rw [if_neg isQ] at held
      rw [set_other _ isQ, set_other _ isR, set_other _ isQ]
      exact holds tensor b held

theorem execAll_splitStatements {s : Split} {a q r : A} {part : List Statement}
    (generated : splitStatements shapes s = .ok part) (nodup : s.q ≠ s.r) (left : s.input ≠ s.q)
    (right : s.input ≠ s.r) (bound : env (tensorName s.input) = some (.array a))
    (factored : arrays.split s a = some (q, r)) :
    ∃ q' r', execAll arrays env part = some (.next ((((env.set (tensorName s.q) (.array q')).set
      (tensorName s.r) (.array r')).set (tensorName s.q) (.array q)).set (tensorName s.r) (.array r))) := by
  obtain ⟨q', r', _, -, called, -, -, -, ranLeft, ranRight⟩ :=
    split_stages shapes nodup left right bound factored
  obtain ⟨comment, -, generated⟩ := Outcome.bind_eq_ok.mp generated
  obtain ⟨first, ofLeft, generated⟩ := Outcome.bind_eq_ok.mp generated
  obtain ⟨second, ofRight, generated⟩ := Outcome.bind_eq_ok.mp generated
  cases generated
  refine ⟨q', r', ?_⟩
  rw [← ranRight second ofRight, ← execAll_append (ranLeft first ofLeft)]
  simp [execAll, exec, called, assign_pair]

/-- The statements of an operation do what it means. -/
theorem execAll_statements {op : Operation} {part : List Statement} {store final : IntMap A}
    (generated : statements shapes op = .ok part) (nodup : op.outputs.Nodup)
    (unused : ∀ tensor ∈ op.outputs, tensor ∉ op.inputs) (holds : Holds env store)
    (stepped : arrays.step store op = some final) :
    ∃ next, execAll arrays env part = some (.next next) ∧ Holds next final := by
  cases op with
  | contraction c =>
    simp only [ArrayLibrary.step, Option.bind_eq_bind, Option.bind_eq_some_iff] at stepped
    obtain ⟨values, read, result, contracted, same⟩ := stepped
    cases same
    obtain ⟨statement, assigned, rfl⟩ := Outcome.map_eq_ok.mp generated
    exact ⟨_, execAll_assign assigned (eval_contractionCall holds read contracted), holds.set _ _⟩
  | transposition t =>
    simp only [ArrayLibrary.step, Option.bind_eq_bind, Option.bind_eq_some_iff] at stepped
    obtain ⟨a, known, result, transposed, same⟩ := stepped
    cases same
    obtain ⟨statement, assigned, rfl⟩ := Outcome.map_eq_ok.mp generated
    exact ⟨_, execAll_assign assigned (eval_transpositionCall (holds _ _ known) transposed), holds.set _ _⟩
  | split s =>
    simp only [ArrayLibrary.step, Option.bind_eq_bind, Option.bind_eq_some_iff] at stepped
    obtain ⟨a, known, ⟨q, r⟩, factored, same⟩ := stepped
    cases same
    obtain ⟨apart, left, right⟩ := split_apart nodup unused
    obtain ⟨q', r', ran⟩ := execAll_splitStatements generated apart left right (holds _ _ known) factored
    exact ⟨_, ran, holds.split s q' r' q r⟩
  | foreign f => cases stepped

/-- The statements of all operations do what the program means. -/
theorem execAll_parts {ops : List Operation} {parts : List (List Statement)} {store final : IntMap A}
    (generated : ops.mapM (statements shapes) = .ok parts)
    (separate : ∀ op ∈ ops, op.outputs.Nodup ∧ ∀ tensor ∈ op.outputs, tensor ∉ op.inputs)
    (holds : Holds env store) (run : ops.foldlM arrays.step store = some final) :
    ∃ next, execAll arrays env parts.flatten = some (.next next) ∧ Holds next final := by
  have all := Outcome.mapM_eq_ok.mp generated
  clear generated
  induction all generalizing env store with
  | nil =>
    cases run
    exact ⟨env, rfl, holds⟩
  | cons first _ ih =>
    rw [List.foldlM_cons, Option.bind_eq_bind, Option.bind_eq_some_iff] at run
    obtain ⟨middle, stepped, run⟩ := run
    obtain ⟨nodup, unused⟩ := separate _ List.mem_cons_self
    obtain ⟨next, ran, holds⟩ := execAll_statements first nodup unused holds stepped
    obtain ⟨last, rest, holds⟩ := ih (fun op member => separate op (List.mem_cons_of_mem _ member)) holds run
    exact ⟨last, by rw [List.flatten_cons, execAll_append ran, rest], holds⟩

/-- A single array is returned itself and several as a tuple. -/
def results : List A → Value A
  | [a] => .array a
  | values => .tuple (values.map .array)

theorem evalAll_tensors {store : IntMap A} (holds : Holds env store) {tensors : List TensorId} {values : List A}
    (read : tensors.mapM store.get? = some values) :
    evalAll arrays env (tensors.map tensorVar) = some (values.map .array) := by
  induction tensors generalizing values with
  | nil =>
    cases read
    rfl
  | cons tensor rest ih =>
    simp only [List.mapM_cons, Option.bind_eq_bind, Option.bind_eq_some_iff] at read
    obtain ⟨a, known, others, later, same⟩ := read
    cases same
    simp [evalAll, tensorVar, eval, holds _ _ known, ih later]

theorem execAll_resultStatement {store : IntMap A} (holds : Holds env store) {tensors : List TensorId}
    {values : List A} (read : tensors.mapM store.get? = some values) :
    execAll arrays env [resultStatement tensors] = some (.returned (results values)) := by
  have evaluated := @evalAll_tensors _ arrays _ _ holds _ _ read
  cases tensors with
  | nil =>
    cases read
    rfl
  | cons tensor rest =>
    simp only [List.mapM_cons, Option.bind_eq_bind, Option.bind_eq_some_iff] at read
    obtain ⟨a, known, others, later, same⟩ := read
    cases same
    cases rest with
    | nil =>
      cases later
      simp [resultStatement, execAll, exec, tensorVar, eval, holds _ _ known, results]
    | cons second more =>
      simp only [List.mapM_cons, Option.bind_eq_bind, Option.bind_eq_some_iff] at later
      obtain ⟨b, -, more', -, same⟩ := later
      cases same
      simp only [resultStatement, execAll, exec, eval, evaluated, results, Option.bind_eq_bind, Option.bind_some]

theorem lookup_named {entries : List (TensorId × A)} {tensor : TensorId} {a : A}
    (known : IntMap.lookup tensor entries = some a) :
    (entries.map fun entry => (tensorName entry.1, Value.array entry.2)).lookup (tensorName tensor) =
      some (.array a) := by
  induction entries with
  | nil => cases known
  | cons entry rest ih =>
    rw [List.map_cons, List.lookup_cons]
    rw [IntMap.lookup] at known
    by_cases same : entry.1 = tensor
    · rw [if_pos same] at known
      cases known
      simp [same]
    · rw [if_neg same] at known
      have names : (tensorName tensor == tensorName entry.1) = false :=
        beq_eq_false_iff_ne.mpr fun equal => same (tensorName_injective equal).symm
      rw [names]
      exact ih known

/-- Called with the arrays of a store, a function finds them under its parameters. -/
theorem holds_parameters (store : IntMap A) :
    Holds (fun name => ((store.keys.map tensorName).zip
      (store.entries.map fun entry => Value.array entry.2)).lookup name) store := by
  intro tensor a known
  rw [IntMap.keys, List.map_map, List.zip_map']
  exact lookup_named known

/-- A call of the code for operations returns what the outputs mean. -/
theorem call_parts {ops : List Operation} {parts : List (List Statement)} {outputs : List TensorId}
    {inputs final : IntMap A} {values : List A} (generated : ops.mapM (statements shapes) = .ok parts)
    (separate : ∀ op ∈ ops, op.outputs.Nodup ∧ ∀ tensor ∈ op.outputs, tensor ∉ op.inputs)
    (run : ops.foldlM arrays.step inputs = some final) (read : outputs.mapM final.get? = some values) :
    call arrays (inputs.keys.map tensorName) (.block (parts.flatten ++ [resultStatement outputs]))
      (inputs.entries.map fun entry => .array entry.2) = some (results values) := by
  obtain ⟨next, ran, holds⟩ := execAll_parts generated separate (holds_parameters inputs) run
  have returned := @execAll_resultStatement _ arrays _ _ holds _ _ read
  have lengths : (inputs.keys.map tensorName).length =
      (inputs.entries.map fun entry => Value.array entry.2).length := by simp [IntMap.keys]
  rw [call, if_pos lengths, exec, execAll_append ran, returned]
  rfl

/-- Whatever the arrays that a program is given, its code returns what the program
means on them, if it means anything. -/
theorem compile_preserves_meaning {α : Type} [CommSemiring α] (factoring : Tensor.Factoring α) {p : Program}
    {table : SymbolTable} (accepted : SymbolTable.ofProgram p = .ok table) (name : String) :
    ∃ body, compile name p none = .ok (scaffold name (table.inputs.map tensorName) body) ∧
      table.outputs.Pairwise (· < ·) ∧
      ∀ inputs final : IntMap (Tensor α), inputs.keys = table.inputs →
        (Tensor.library factoring).evaluate p inputs = some final →
        ∃ outputs, table.outputs.mapM final.get? = some outputs ∧
          call (Tensor.library factoring) (table.inputs.map tensorName) (.block body)
            (inputs.entries.map fun entry => .array entry.2) = some (results outputs) := by
  obtain ⟨parts, generated, compiled⟩ := compile_plain accepted name
  obtain ⟨-, single, described⟩ := SymbolTable.ofProgram_eq_ok.mp accepted
  refine ⟨_, compiled, SymbolTable.withRole_ascending _ table, fun inputs final keys run => ?_⟩
  have known : ∀ tensor ∈ table.outputs, ∃ a, final.get? tensor = some a := by
    intro tensor output
    have made := ((SymbolTable.mem_outputs described).mp output).1
    exact Option.isSome_iff_exists.mp (ArrayLibrary.run_contains run (.inr made))
  obtain ⟨outputs, read⟩ := ArrayLibrary.exists_read known
  refine ⟨outputs, read, ?_⟩
  rw [← keys]
  exact call_parts generated single.separate run read

/-- Both groups of a split have two axes; the factors are joined again. -/
def turnAndSplit : Program :=
  ⟨[.transposition ⟨0, [2, 1, 3, 0], 1, by decide⟩,
    .split ⟨1, 4, 2, 2, 3, Nat.le_succ 1, by decide⟩,
    .contraction ⟨[⟨2, [0, 1, 2]⟩, ⟨3, [2, 3, 4]⟩], [0, 1, 3, 4], 4, by decide, by decide, by decide⟩]⟩

theorem compile_preserves_meaning_turnAndSplit :
    ∃ body, compile "f" turnAndSplit none = .ok (scaffold "f" ["T0"] body) ∧
      call (Tensor.library (.unit : Tensor.Factoring Nat)) ["T0"] (.block body)
          [.array ⟨[2, 1, 2, 1], [1, 2, 3, 4], rfl⟩] =
        some (.array ⟨[2, 1, 1, 2], [1, 3, 2, 4], rfl⟩) := by
  have accepted : SymbolTable.ofProgram turnAndSplit = .ok ⟨.ofList [(0, ⟨true, false⟩), (1, ⟨false, false⟩),
      (2, ⟨false, false⟩), (3, ⟨false, false⟩), (4, ⟨false, true⟩)]⟩ := rfl
  obtain ⟨body, compiled, -, meaning⟩ := compile_preserves_meaning (.unit : Tensor.Factoring Nat) accepted "f"
  obtain ⟨outputs, read, returned⟩ := meaning (.ofList [(0, ⟨[2, 1, 2, 1], [1, 2, 3, 4], rfl⟩)]) _ rfl rfl
  cases read
  exact ⟨body, compiled, returned⟩

end TensorNetwork.Codegen
