import TensorNetwork.Proofs.Arrays.ShapeRules
import TensorNetwork.Proofs.Codegen.Meaning

/-! Comments on shapes tell the truth. Run on arrays with the given shapes, every
statement succeeds, what it assigns has the shapes that its comment shows, and each
tensor ends up with the shape that was worked out for it. -/
namespace TensorNetwork.Codegen
open Source Execution

variable {A : Type} {arrays : ArrayLibrary A} {env : Env A} {table : ShapeTable Extent}

/-- A shape of integers as it is written. -/
def shownShape (extents : List Nat) : String := Text.intTuple (extents.map Nat.cast)

/-- The shape of an array, as a table of shapes has it. -/
def arrayShape (arrays : ArrayLibrary A) (a : A) : Shape Extent := .ofInts ((arrays.shape a).map Nat.cast)

/-- What was assigned has the shape, or the shapes, that the comment shows as it is
printed. -/
def Remarked (arrays : ArrayLibrary A) (env : Env A) : Statement → Prop
  | .assign (.var name) _ comment =>
      ∃ a, env name = some (.array a) ∧ commentText comment = "  # shape: " ++ shownShape (arrays.shape a)
  | .assign (.tuple [.var first, .var second]) _ comment =>
      ∃ a b, env first = some (.array a) ∧ env second = some (.array b) ∧
        commentText comment =
          "  # shapes: " ++ shownShape (arrays.shape a) ++ ", " ++ shownShape (arrays.shape b)
  | _ => False

/-- Statements that succeed one after the other, each with a comment that is true
right after it. -/
inductive Truthful (arrays : ArrayLibrary A) : Env A → List Statement → Env A → Prop where
  | done {env : Env A} : Truthful arrays env [] env
  | next {env next final : Env A} {statement : Statement} {rest : List Statement} :
      exec arrays env statement = some (.next next) → Remarked arrays next statement →
      Truthful arrays next rest final → Truthful arrays env (statement :: rest) final

/-- The parts of operations run one after the other. After each, the tensors that
its operation produces have the shapes of the table. -/
inductive Follows (arrays : ArrayLibrary A) (table : ShapeTable Extent) :
    Env A → List Operation → List (List Statement) → Env A → Prop where
  | done {env : Env A} : Follows arrays table env [] [] env
  | next {env next final : Env A} {op : Operation} {ops : List Operation} {part : List Statement}
      {parts : List (List Statement)} :
      Truthful arrays env part next →
      (∀ tensor ∈ op.outputs, ∃ a, next (tensorName tensor) = some (.array a) ∧
        table.shape tensor = .ok (arrayShape arrays a)) →
      Follows arrays table next ops parts final → Follows arrays table env (op :: ops) (part :: parts) final

theorem Truthful.append {first second : List Statement} {middle final : Env A}
    (start : Truthful arrays env first middle) (rest : Truthful arrays middle second final) :
    Truthful arrays env (first ++ second) final := by
  induction start with
  | done => exact rest
  | next ran remarked _ ih => exact .next ran remarked (ih rest)

theorem execAll_singleton {statement : Statement} {next : Env A}
    (ran : execAll arrays env [statement] = some (.next next)) : exec arrays env statement = some (.next next) := by
  cases flow : exec arrays env statement with
  | none => simp [execAll, flow] at ran
  | some reached =>
    cases reached with
    | next after => simpa [execAll, flow] using ran
    | returned value => simp [execAll, flow] at ran

theorem text_arrayShape (a : A) : (arrayShape arrays a).text = shownShape (arrays.shape a) := by
  rw [Shape.text, arrayShape, Shape.ofInts, List.map_map]
  rfl

/-- An assignment with a comment from the table is truthful if the table has the
shape of what was assigned. -/
theorem truthful_assign {tensor : TensorId} {value : Expr} {statement : Statement} {next : Env A} {a : A}
    (generated : assign (some table) tensor value = .ok statement)
    (ran : execAll arrays env [statement] = some (.next next))
    (bound : next (tensorName tensor) = some (.array a))
    (known : table.shape tensor = .ok (arrayShape arrays a)) : Truthful arrays env [statement] next := by
  refine .next (execAll_singleton ran) ?_ .done
  rw [assign, shapeComment, known] at generated
  cases generated
  refine ⟨a, bound, ?_⟩
  simp only [text_arrayShape, commentText, ← String.append_assoc]
  rfl

/-- An assignment that may be missing. -/
theorem truthful_optional {tensor : TensorId} {value : Expr} {needed : Prop} [Decidable needed]
    {part : List Statement} {next : Env A} {a : A}
    (generated : (if needed then (assign (some table) tensor value).map ([·]) else .ok []) = .ok part)
    (ran : execAll arrays env part = some (.next next))
    (bound : next (tensorName tensor) = some (.array a))
    (known : table.shape tensor = .ok (arrayShape arrays a)) : Truthful arrays env part next := by
  split at generated
  · obtain ⟨statement, assigned, rfl⟩ := Outcome.map_eq_ok.mp generated
    exact truthful_assign assigned ran bound known
  · cases generated
    cases ran
    exact .done

theorem sides_arrayShape (s : Split) (a : A) :
    ShapeTable.sides s.left (arrayShape arrays a) =
      (.ofInt ((arrays.shape a).take s.left).prod, .ofInt ((arrays.shape a).drop s.left).prod) := by
  rw [arrayShape, ShapeTable.sides_ofInts, ← List.map_take, ← List.map_drop, Nat.cast_list_prod,
    Nat.cast_list_prod]

/-- The comment on both factors shows their matrices. -/
theorem factorComment_eq {s : Split} {a q : A} {bond : Nat} {comment : Option String}
    (ofInput : table.shape s.input = .ok (arrayShape arrays a))
    (ofQ : table.shape s.q = .ok (arrayShape arrays q))
    (last : arrays.shape q = (arrays.shape a).take s.left ++ [bond])
    (made : factorComment (some table) s = .ok comment) :
    commentText comment = "  # shapes: " ++ shownShape [((arrays.shape a).take s.left).prod, bond] ++ ", " ++
      shownShape [bond, ((arrays.shape a).drop s.left).prod] := by
  have final : (arrayShape arrays q).getLast? = some (.ofInt bond) := by
    simp [arrayShape, Shape.ofInts, last]
  rw [factorComment, ShapeTable.matrixShape, ofInput, ofQ] at made
  simp only [Except.map, bind, Except.bind, sides_arrayShape, final] at made
  cases made
  simp only [commentText, ← String.append_assoc]
  rfl

theorem truthful_split {s : Split} {a q r : A} {part : List Statement}
    (generated : splitStatements (some table) s = .ok part) (nodup : s.q ≠ s.r) (left : s.input ≠ s.q)
    (right : s.input ≠ s.r) (bound : env (tensorName s.input) = some (.array a))
    (factored : arrays.split s a = some (q, r)) (ofInput : table.shape s.input = .ok (arrayShape arrays a))
    (ofQ : table.shape s.q = .ok (arrayShape arrays q)) (ofR : table.shape s.r = .ok (arrayShape arrays r)) :
    ∃ q' r', Truthful arrays env part ((((env.set (tensorName s.q) (.array q')).set
      (tensorName s.r) (.array r')).set (tensorName s.q) (.array q)).set (tensorName s.r) (.array r)) := by
  obtain ⟨q', r', bond, -, called, shapeQ, shapeR, last, ranLeft, ranRight⟩ :=
    split_stages (some table) nodup left right bound factored
  obtain ⟨comment, commented, generated⟩ := Outcome.bind_eq_ok.mp generated
  obtain ⟨first, ofLeft, generated⟩ := Outcome.bind_eq_ok.mp generated
  obtain ⟨second, ofRight, generated⟩ := Outcome.bind_eq_ok.mp generated
  cases generated
  have ran : exec arrays env (.assign (.tuple [.var (tensorName s.q), .var (tensorName s.r)]) (splitCall s) comment) =
      some (.next ((env.set (tensorName s.q) (.array q')).set (tensorName s.r) (.array r'))) := by
    simp [exec, called, assign_pair]
  refine ⟨q', r', .next ran ⟨q', r', ?_, set_same .., ?_⟩ (.append
    (truthful_optional ofLeft (ranLeft first ofLeft) (set_same ..) ofQ)
    (truthful_optional ofRight (ranRight second ofRight) (set_same ..) ofR))⟩
  · rw [set_other _ nodup.symm, set_same]
  · rw [shapeQ, shapeR]
    exact factorComment_eq ofInput ofQ last commented

/-- The table knows all arrays of a store by their shapes. -/
def Agrees (arrays : ArrayLibrary A) (table : ShapeTable Extent) (store : IntMap A) : Prop :=
  ∀ tensor a, store.get? tensor = some a →
    table.Integral tensor ∧ (arrays.shape a).map Nat.cast = table.integers tensor

theorem Agrees.shape {store : IntMap A} (agrees : Agrees arrays table store) {tensor : TensorId} {a : A}
    (found : store.get? tensor = some a) : table.shape tensor = .ok (arrayShape arrays a) := by
  obtain ⟨integral, extents⟩ := agrees tensor a found
  rw [ShapeTable.shape, integral, arrayShape, extents]

/-- An operation is defined on arrays that the table knows, if it meets its demands. -/
theorem Agrees.step {store : IntMap A} {op : Operation} (agrees : Agrees arrays table store)
    (rules : arrays.ShapeRules) (demands : op.WellShaped table.integers)
    (inputs : ∀ tensor ∈ op.inputs, store.contains tensor = true)
    (outputs : ∀ tensor ∈ op.outputs, table.Integral tensor) :
    ∃ next, arrays.step store op = some next ∧ Agrees arrays table next := by
  obtain ⟨next, stepped, shaped⟩ :=
    ArrayLibrary.step_shaped rules demands (fun tensor a found => (agrees tensor a found).2) inputs
  refine ⟨next, stepped, fun tensor a found => ⟨?_, shaped tensor a found⟩⟩
  by_cases output : tensor ∈ op.outputs
  · exact outputs tensor output
  · rw [ArrayLibrary.step_frame stepped output] at found
    exact (agrees tensor a found).1

/-- The statements of an operation do what it means and tell the truth. -/
theorem truthful_statements {op : Operation} {part : List Statement} {store final : IntMap A}
    (generated : statements (some table) op = .ok part) (nodup : op.outputs.Nodup)
    (unused : ∀ tensor ∈ op.outputs, tensor ∉ op.inputs) (holds : Holds env store)
    (stepped : arrays.step store op = some final)
    (before : Agrees arrays table store) (after : Agrees arrays table final) :
    ∃ next, Truthful arrays env part next ∧ Holds next final := by
  have single : ∀ tensor ∈ op.outputs, ∀ value, (assign (some table) tensor value).map ([·]) = .ok part →
      ∃ next, Truthful arrays env part next ∧ Holds next final := by
    intro tensor output value made
    obtain ⟨next, ran, kept⟩ := execAll_statements generated nodup unused holds stepped
    obtain ⟨statement, assigned, rfl⟩ := Outcome.map_eq_ok.mp made
    obtain ⟨a, found⟩ := Option.isSome_iff_exists.mp (ArrayLibrary.step_contains stepped (.inr output))
    exact ⟨next, truthful_assign assigned ran (kept _ a found) (after.shape found), kept⟩
  cases op with
  | contraction c => exact single c.output (by simp [Operation.outputs]) _ generated
  | transposition t => exact single t.output (by simp [Operation.outputs]) _ generated
  | split s =>
    simp only [ArrayLibrary.step, Option.bind_eq_bind, Option.bind_eq_some_iff] at stepped
    obtain ⟨a, known, ⟨q, r⟩, factored, same⟩ := stepped
    cases same
    obtain ⟨apart, left, right⟩ := split_apart nodup unused
    have ofQ : table.shape s.q = .ok (arrayShape arrays q) :=
      after.shape (by simp [IntMap.get?_insert, apart.symm])
    have ofR : table.shape s.r = .ok (arrayShape arrays r) := after.shape (by simp [IntMap.get?_insert])
    obtain ⟨q', r', truthful⟩ := truthful_split generated apart left right (holds _ _ known) factored
      (before.shape known) ofQ ofR
    exact ⟨_, truthful, holds.split s q' r' q r⟩
  | foreign f => cases stepped

/-- The statements of all operations tell the truth. Every operation uses tensors
that are known from the start or produced before it. -/
theorem follows_parts {ops : List Operation} {parts : List (List Statement)} {store : IntMap A}
    (rules : arrays.ShapeRules) (generated : ops.mapM (statements (some table)) = .ok parts)
    (separate : ∀ op ∈ ops, op.outputs.Nodup ∧ ∀ tensor ∈ op.outputs, tensor ∉ op.inputs)
    (ready : ∀ before op after, ops = before ++ op :: after → ∀ tensor ∈ op.inputs,
      store.contains tensor = true ∨ tensor ∈ produced before)
    (demands : ∀ op ∈ ops, op.WellShaped table.integers)
    (integral : ∀ tensor ∈ produced ops, table.Integral tensor)
    (holds : Holds env store) (agrees : Agrees arrays table store) :
    ∃ last final, Follows arrays table env ops parts last ∧ ops.foldlM arrays.step store = some final := by
  have all := Outcome.mapM_eq_ok.mp generated
  clear generated
  induction all generalizing env store with
  | nil => exact ⟨env, store, .done, rfl⟩
  | @cons op part rest others first _ ih =>
    have produces : ∀ tensor ∈ op.outputs, table.Integral tensor := fun tensor output =>
      integral tensor (List.mem_append_left _ output)
    have inputs : ∀ tensor ∈ op.inputs, store.contains tensor = true := by
      intro tensor used
      exact (ready [] op rest rfl tensor used).resolve_right (by simp [produced])
    obtain ⟨next, stepped, known⟩ := agrees.step rules (demands op List.mem_cons_self) inputs produces
    obtain ⟨nodup, unused⟩ := separate op List.mem_cons_self
    obtain ⟨env', truthful, kept⟩ := truthful_statements first nodup unused holds stepped agrees known
    have later : ∀ before o after, rest = before ++ o :: after → ∀ tensor ∈ o.inputs,
        next.contains tensor = true ∨ tensor ∈ produced before := by
      rintro before o after rfl tensor used
      rcases ready (op :: before) o after rfl tensor used with old | made
      · exact .inl (ArrayLibrary.step_contains stepped (.inl old))
      · rcases List.mem_append.mp (show tensor ∈ op.outputs ++ produced before from made) with here | earlier
        · exact .inl (ArrayLibrary.step_contains stepped (.inr here))
        · exact .inr earlier
    obtain ⟨last, final, follows, run⟩ :=
      ih (fun o member => separate o (List.mem_cons_of_mem _ member)) later
        (fun o member => demands o (List.mem_cons_of_mem _ member))
        (fun tensor made => integral tensor (List.mem_append_right _ made)) kept known
    refine ⟨last, final, .next truthful (fun tensor output => ?_) follows, ?_⟩
    · obtain ⟨a, found⟩ := Option.isSome_iff_exists.mp (ArrayLibrary.step_contains stepped (.inr output))
      exact ⟨a, kept tensor a found, known.shape found⟩
    · rw [List.foldlM_cons, stepped]
      exact run

theorem statements_wellShaped {op : Operation} (known : op.Known)
    (integral : ∀ tensor ∈ op.inputs ++ op.outputs, table.Integral tensor)
    (demands : op.WellShaped table.integers) : ∃ part, statements (some table) op = .ok part := by
  have shown : ∀ tensor ∈ op.inputs ++ op.outputs,
      table.shape tensor = .ok (.ofInts (table.integers tensor)) := by
    intro tensor occurs
    rw [ShapeTable.shape, integral tensor occurs]
  refine statements_annotated known (fun tensor occurs => ⟨_, shown tensor occurs⟩) ?_
  rintro s rfl
  -- Shapes of the left factor end in the bond, so they are not empty.
  obtain ⟨-, ofQ, -⟩ := demands
  rw [shown s.q (by simp [Operation.outputs]), ofQ]
  simp [Shape.ofInts]

/-- Code with comments can be made from all shapes that fit a program. Called with
arrays of these shapes it returns, and on the way every comment is true. -/
theorem compile_comments_hold {p : Program} {roles : SymbolTable} {shapes : List (TensorId × List Int)}
    {table : ShapeTable Extent} (accepted : SymbolTable.ofProgram p = .ok roles) (name : String)
    (covered : ∀ tensor ∈ roles.inputs, ∃ extents, lastEntry shapes tensor = some extents)
    (worked : ShapeTable.infer p (ShapeTable.handedOver (ShapeTable.integral shapes)) = .ok table) :
    ∃ parts, compile name p (some (ShapeTable.handedOver (ShapeTable.integral shapes))) =
        .ok (scaffold name (roles.inputs.map tensorName) (parts.flatten ++ [resultStatement roles.outputs])) ∧
      ∀ {A : Type} (arrays : ArrayLibrary A), arrays.ShapeRules → ∀ inputs : IntMap A, inputs.keys = roles.inputs →
        (∀ tensor a, inputs.get? tensor = some a →
          lastEntry shapes tensor = some ((arrays.shape a).map Nat.cast)) →
        let parameters := roles.inputs.map tensorName
        let arguments := inputs.entries.map fun entry => Value.array entry.2
        ∃ last result, Follows arrays table (fun name => (parameters.zip arguments).lookup name)
            p.operations parts last ∧
          call arrays parameters (.block (parts.flatten ++ [resultStatement roles.outputs])) arguments =
            some result := by
  obtain ⟨-, single, described⟩ := SymbolTable.ofProgram_eq_ok.mp accepted
  obtain ⟨integral, given, demands⟩ := ShapeTable.infer_wellShaped accepted covered worked
  obtain ⟨parts, generated⟩ : ∃ parts, p.operations.mapM (statements (some table)) = .ok parts :=
    Outcome.mapM_total fun op member => statements_wellShaped (single.known op member)
      (fun tensor occurs => integral tensor (mentioned_of_mem member occurs)) (demands op member)
  have inference : inferred p (some (ShapeTable.handedOver (ShapeTable.integral shapes))) = .ok (some table) := by
    rw [inferred, worked]
    rfl
  refine ⟨parts, compile_parts accepted inference generated name, ?_⟩
  intro A arrays rules inputs keys shaped
  have agrees : Agrees arrays table inputs := by
    intro tensor a found
    have input : tensor ∈ roles.inputs := keys ▸ IntMap.mem_keys.mpr (Option.isSome_iff_exists.mpr ⟨a, found⟩)
    refine ⟨integral tensor (List.mem_append_left _ ((SymbolTable.mem_inputs described).mp input).1), ?_⟩
    exact Option.some.inj ((shaped tensor a found).symm.trans (given tensor input))
  have ready : ∀ before op after, p.operations = before ++ op :: after → ∀ tensor ∈ op.inputs,
      inputs.contains tensor = true ∨ tensor ∈ produced before := by
    intro before op after split tensor used
    rw [← IntMap.mem_keys, keys]
    exact input_or_produced accepted split used
  obtain ⟨last, final, follows, run⟩ := follows_parts rules generated single.separate ready demands
    (fun tensor made => integral tensor (List.mem_append_right _ made)) (holds_parameters inputs) agrees
  have known : ∀ tensor ∈ roles.outputs, ∃ a, final.get? tensor = some a := by
    intro tensor output
    have made := ((SymbolTable.mem_outputs described).mp output).1
    exact Option.isSome_iff_exists.mp (ArrayLibrary.run_contains run (.inr made))
  obtain ⟨values, read⟩ := ArrayLibrary.exists_read known
  have returned := call_parts generated single.separate run read
  rw [keys] at follows returned
  exact ⟨last, results values, follows, returned⟩

/-- An axis without extent on the right: the matrix is eight by zero and so is the
left factor. -/
theorem compile_comments_hold_turnAndSplit :
    ∃ table parts last result,
      ShapeTable.infer turnAndSplit (ShapeTable.handedOver (ShapeTable.integral [(0, [3, 2, 4, 0])])) = .ok table ∧
      table.shape 2 = .ok [.ofInt 4, .ofInt 2, .ofInt 0] ∧
      compile "f" turnAndSplit (some (ShapeTable.handedOver (ShapeTable.integral [(0, [3, 2, 4, 0])]))) =
        .ok (scaffold "f" ["T0"] (parts.flatten ++ [resultStatement [4]])) ∧
      Follows (Tensor.library (.unit : Tensor.Factoring Nat)) table
        (fun name => [("T0", .array ⟨[3, 2, 4, 0], [], rfl⟩)].lookup name) turnAndSplit.operations parts last ∧
      call (Tensor.library (.unit : Tensor.Factoring Nat)) ["T0"] (.block (parts.flatten ++ [resultStatement [4]]))
        [.array ⟨[3, 2, 4, 0], [], rfl⟩] = some result := by
  have accepted : SymbolTable.ofProgram turnAndSplit = .ok ⟨.ofList [(0, ⟨true, false⟩), (1, ⟨false, false⟩),
      (2, ⟨false, false⟩), (3, ⟨false, false⟩), (4, ⟨false, true⟩)]⟩ := rfl
  have worked : ∃ table, ShapeTable.infer turnAndSplit
      (ShapeTable.handedOver (ShapeTable.integral [(0, [3, 2, 4, 0])])) = .ok table ∧
        table.shape 2 = .ok [.ofInt 4, .ofInt 2, .ofInt 0] := ⟨_, rfl, rfl⟩
  obtain ⟨table, worked, shape⟩ := worked
  obtain ⟨parts, compiled, calls⟩ := compile_comments_hold accepted "f" (by
    intro tensor input
    cases List.mem_singleton.mp input
    exact ⟨[3, 2, 4, 0], rfl⟩) worked
  obtain ⟨last, result, follows, returned⟩ := calls (Tensor.library (.unit : Tensor.Factoring Nat))
    (Tensor.library_shapeRules .unit) (.ofList [(0, ⟨[3, 2, 4, 0], [], rfl⟩)]) rfl (by
    intro tensor a found
    cases List.mem_singleton.mp (IntMap.mem_entries.mpr found)
    rfl)
  exact ⟨table, parts, last, result, worked, shape, compiled, follows, returned⟩

end TensorNetwork.Codegen
