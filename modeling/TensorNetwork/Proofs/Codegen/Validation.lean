import TensorNetwork.Proofs.Codegen.Meaning
import TensorNetwork.Proofs.Shape.Relations

/-! Code generation fails only where it validates. A program is refused for the roles of
its tensors or for the shapes that were asked for; past these checks everything that is
looked up for a comment is found. Lookups are made in the table of the whole program, so
they rest on no tensor being produced twice: a shape that was given for a factor of a
split, were it not replaced for good, could lack the bond that the comment shows. What
extents are does not matter. -/
namespace TensorNetwork.Codegen

variable {ε : Type} [ExtentAlgebra ε] {p : Program} {roles : SymbolTable} {table : ShapeTable ε}
  {shapes : GivenShapes ε} {op : Operation}

/-- What the comments of an operation show can be looked up. -/
structure Shown (table : ShapeTable ε) (op : Operation) : Prop where
  tensors : ∀ tensor ∈ op.inputs ++ op.outputs, ∃ shape, table.shape tensor = .ok shape
  matrices : ∀ s, op = .split s → ∃ sides, table.matrixShape s = .ok sides
  bonds : ∀ s, op = .split s → ∃ shape bond, table.shape s.q = .ok shape ∧ shape.getLast? = some bond

theorem shown_of_infer (accepted : SymbolTable.ofProgram p = .ok roles)
    (worked : ShapeTable.infer p shapes = .ok table) (member : op ∈ p.operations) : Shown table op := by
  obtain ⟨-, single, -⟩ := SymbolTable.ofProgram_eq_ok.mp accepted
  have tensors : ∀ tensor ∈ op.inputs ++ op.outputs, ∃ shape, table.shape tensor = .ok shape := by
    intro tensor occurs
    obtain ⟨shape, known⟩ := ShapeTable.infer_known single worked member tensor occurs
    exact ⟨shape, ShapeTable.shape_eq_ok.mpr known⟩
  refine ⟨tensors, ?_, ?_⟩
  · rintro s rfl
    obtain ⟨shape, known⟩ := tensors s.input (by simp [Operation.inputs])
    exact ⟨_, by rw [ShapeTable.matrixShape, known]; rfl⟩
  · rintro s rfl
    obtain ⟨shape, -, -, ofQ, -⟩ := ShapeTable.infer_split single worked member
    exact ⟨_, ShapeTable.bond s.left shape, ShapeTable.shape_eq_ok.mpr ofQ, List.getLast?_concat⟩

theorem Shown.statements (shown : Shown table op) (known : op.Known) :
    ∃ part, Codegen.statements (some table) op = .ok part := by
  refine statements_annotated known shown.tensors ?_
  rintro s rfl empty
  obtain ⟨shape, bond, ofQ, last⟩ := shown.bonds s rfl
  cases Except.ok.inj (ofQ.symm.trans empty)
  cases last

/-- Past the checks, every operation has its statements. -/
theorem statements_total {given : Option (GivenShapes ε)} {worked : Option (ShapeTable ε)}
    (accepted : SymbolTable.ofProgram p = .ok roles) (inference : inferred p given = .ok worked)
    (member : op ∈ p.operations) : ∃ part, statements worked op = .ok part := by
  obtain ⟨-, single, -⟩ := SymbolTable.ofProgram_eq_ok.mp accepted
  have known := single.known op member
  cases given with
  | none =>
    cases inference
    exact statements_plain known
  | some shapes =>
    obtain ⟨table, found, rfl⟩ := Outcome.map_eq_ok.mp inference
    exact (shown_of_infer accepted found member).statements known

/-- Code generation fails with its symbol table, or else with the shapes that were asked
for, over any extents, and then for the same cause. Otherwise it gives a text: the table of
shapes knows the tensors of every operation, the matrix that a split factors and the bond
that it creates. -/
theorem compile_fails_only_in_validation (name : String) (p : Program) (given : Option (GivenShapes ε)) :
    (∀ e, SymbolTable.ofProgram p = .error e → compile name p given = .error e) ∧
    (∀ roles shapes e, SymbolTable.ofProgram p = .ok roles → given = some shapes →
      ShapeTable.infer p shapes = .error e → compile name p given = .error e) ∧
    (∀ roles, SymbolTable.ofProgram p = .ok roles →
      (∀ shapes, given = some shapes → ∃ table, ShapeTable.infer p shapes = .ok table) →
      ∃ text, (compile name p given).map fileText = .ok text) ∧
    ∀ roles (shapes : GivenShapes ε) table, SymbolTable.ofProgram p = .ok roles →
      ShapeTable.infer p shapes = .ok table →
      ∀ op ∈ p.operations, Shown table op ∧ ∃ part, statements (some table) op = .ok part := by
  refine ⟨fun e refused => compile_error refused name given, ?_, fun roles accepted checked => ?_, ?_⟩
  · rintro roles shapes e accepted rfl refused
    simp [compile, accepted, compileWith, inferred, refused, bind, Except.bind, Except.map]
  · obtain ⟨worked, inference⟩ : ∃ worked, inferred p given = .ok worked := by
      cases given with
      | none => exact ⟨none, rfl⟩
      | some shapes =>
        obtain ⟨table, found⟩ := checked shapes rfl
        exact ⟨some table, Outcome.map_eq_ok.mpr ⟨table, found, rfl⟩⟩
    obtain ⟨parts, generated⟩ := Outcome.mapM_total fun op member => statements_total accepted inference member
    exact ⟨_, Outcome.map_eq_ok.mpr ⟨_, compile_parts accepted inference generated name, rfl⟩⟩
  · intro roles shapes table accepted found op member
    obtain ⟨-, single, -⟩ := SymbolTable.ofProgram_eq_ok.mp accepted
    have shown := shown_of_infer accepted found member
    exact ⟨shown, shown.statements (single.known op member)⟩

/-- A shape without axes is given for a factor of the split, and does no harm. -/
theorem compile_fails_only_in_validation_turnAndSplit :
    (∃ table, ShapeTable.infer turnAndSplit [(2, [])] = .ok table) ∧
      ∃ text, (compile "f" turnAndSplit (some [(2, [])])).map fileText = .ok text := by
  obtain ⟨roles, accepted⟩ : ∃ roles, SymbolTable.ofProgram turnAndSplit = .ok roles := ⟨_, rfl⟩
  have worked : ∃ table, ShapeTable.infer turnAndSplit [(2, [])] = .ok table := ⟨_, rfl⟩
  obtain ⟨-, -, generated, -⟩ := compile_fails_only_in_validation "f" turnAndSplit (some [(2, [])])
  refine ⟨worked, generated roles accepted fun shapes same => ?_⟩
  cases same
  exact worked

end TensorNetwork.Codegen
