import TensorNetwork.Codegen.Module
import TensorNetwork.Proofs.SingleAssignment

/-! The frame of generated code. Where no shapes are asked for, generation fails
only with its symbol table; the function generated otherwise takes the inputs,
carries out one part for each operation and returns the outputs. -/
namespace TensorNetwork.Codegen
open Source
variable {ε : Type} [ExtentAlgebra ε]

theorem statements_plain {op : Operation} (known : op.Known) :
    ∃ part, statements (none : Option (ShapeTable ε)) op = .ok part := by
  cases op with
  | contraction c => exact ⟨_, rfl⟩
  | transposition t => exact ⟨_, rfl⟩
  | split s =>
    simp only [statements, splitStatements, restoreLeft, restoreRight]
    split <;> split <;> exact ⟨_, rfl⟩
  | foreign f => exact known.elim

/-- Comments can be made where the shapes are known that they show. -/
theorem statements_annotated {table : ShapeTable ε} {op : Operation} (known : op.Known)
    (shown : ∀ tensor ∈ op.inputs ++ op.outputs, ∃ shape, table.shape tensor = .ok shape)
    (bonded : ∀ s, op = .split s → table.shape s.q ≠ .ok []) :
    ∃ part, statements (some table) op = .ok part := by
  have assigned : ∀ tensor ∈ op.outputs, ∀ value,
      ∃ part, (assign (some table) tensor value).map ([·]) = .ok part := by
    intro tensor output value
    obtain ⟨shape, found⟩ := shown tensor (List.mem_append_right _ output)
    exact ⟨_, by rw [assign, shapeComment, found]; rfl⟩
  cases op with
  | contraction c => exact assigned c.output (by simp [Operation.outputs]) (contractionCall c)
  | transposition t => exact assigned t.output (by simp [Operation.outputs]) (transpositionCall t)
  | split s =>
    obtain ⟨input, ofInput⟩ := shown s.input (by simp [Operation.inputs])
    obtain ⟨q, ofQ⟩ := shown s.q (by simp [Operation.outputs])
    have nonempty : q ≠ [] := by
      rintro rfl
      exact bonded s rfl ofQ
    obtain ⟨text, commented⟩ : ∃ text, factorComment (some table) s = .ok text := by
      rw [factorComment, ShapeTable.matrixShape, ofInput, ofQ]
      exact ⟨_, by simp [Except.map, bind, Except.bind, List.getLast?_eq_some_getLast nonempty]; rfl⟩
    obtain ⟨first, ofLeft⟩ : ∃ part, restoreLeft (some table) s = .ok part := by
      unfold restoreLeft
      split
      · exact assigned s.q (by simp [Operation.outputs]) _
      · exact ⟨[], rfl⟩
    obtain ⟨second, ofRight⟩ : ∃ part, restoreRight (some table) s = .ok part := by
      unfold restoreRight
      split
      · exact assigned s.r (by simp [Operation.outputs]) _
      · exact ⟨[], rfl⟩
    exact ⟨_, by rw [statements, splitStatements, commented, ofLeft, ofRight]; rfl⟩
  | foreign f => exact known.elim

/-- The source of a function around the statements of its body. -/
def scaffold (name : String) (parameters : List String) (body : List Statement) : Statement :=
  .block [.load "numpy" (some library), .blank, .blank, .function name parameters (.block body)]

theorem compile_parts {p : Program} {table : SymbolTable} {given : Option (GivenShapes ε)}
    {shapes : Option (ShapeTable ε)} {parts : List (List Statement)} (accepted : SymbolTable.ofProgram p = .ok table)
    (worked : inferred p given = .ok shapes) (generated : p.operations.mapM (statements shapes) = .ok parts)
    (name : String) :
    compile name p given = .ok (scaffold name (table.inputs.map tensorName)
      (parts.flatten ++ [resultStatement table.outputs])) := by
  simp only [compile, accepted, compileWith, worked, moduleOf, functionBody, generated, bind, Except.bind]
  rfl

theorem compile_eq_ok {p : Program} {given : Option (GivenShapes ε)} {name : String} {source : Statement} :
    compile name p given = .ok source ↔
      ∃ table shapes parts, SymbolTable.ofProgram p = .ok table ∧ inferred p given = .ok shapes ∧
        p.operations.mapM (statements shapes) = .ok parts ∧
        source = scaffold name (table.inputs.map tensorName) (parts.flatten ++ [resultStatement table.outputs]) := by
  constructor
  · intro compiled
    obtain ⟨table, accepted, rest⟩ := Outcome.bind_eq_ok.mp compiled
    obtain ⟨shapes, worked, rest⟩ := Outcome.bind_eq_ok.mp rest
    obtain ⟨body, made, done⟩ := Outcome.bind_eq_ok.mp rest
    obtain ⟨parts, generated, joined⟩ := Outcome.bind_eq_ok.mp made
    cases done
    cases joined
    exact ⟨table, shapes, parts, accepted, worked, generated, rfl⟩
  · rintro ⟨table, shapes, parts, accepted, worked, generated, rfl⟩
    exact compile_parts accepted worked generated name

theorem compile_plain {p : Program} {table : SymbolTable} (accepted : SymbolTable.ofProgram p = .ok table)
    (name : String) :
    ∃ parts, p.operations.mapM (statements (none : Option (ShapeTable ε))) = .ok parts ∧
      compile name p (none : Option (GivenShapes ε)) = .ok (scaffold name (table.inputs.map tensorName)
        (parts.flatten ++ [resultStatement table.outputs])) := by
  obtain ⟨-, single, -⟩ := SymbolTable.ofProgram_eq_ok.mp accepted
  have each : ∀ op ∈ p.operations, ∃ part, statements (none : Option (ShapeTable ε)) op = .ok part :=
    fun op member => statements_plain (single.known op member)
  obtain ⟨parts, generated⟩ := Outcome.mapM_total each
  exact ⟨parts, generated, compile_parts accepted rfl generated name⟩

theorem compile_error {p : Program} {e : Error} (refused : SymbolTable.ofProgram p = .error e)
    (name : String) (given : Option (GivenShapes ε)) : compile name p given = .error e := by
  simp [compile, refused, bind, Except.bind]

end TensorNetwork.Codegen
