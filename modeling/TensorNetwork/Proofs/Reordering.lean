import TensorNetwork.Proofs.Codegen.Scaffold
import TensorNetwork.Proofs.Shape.Stationary

/-! Programs that carry out the same operations in different orders. Tensors have the
same roles and the same shapes in both, whether a shape is given, invented or worked
out and whatever its extents are, so the generated functions differ only in the order of
their parts. -/
namespace TensorNetwork

theorem SymbolTable.roleAmong_perm {ops ops' : List Operation} (perm : ops.Perm ops') :
    roleAmong ops = roleAmong ops' := by
  funext tensor
  have made : tensor ∈ produced ops ↔ tensor ∈ produced ops' := (perm.flatMap_right _).mem_iff
  have used : tensor ∈ consumed ops ↔ tensor ∈ consumed ops' := (perm.flatMap_right _).mem_iff
  simp only [roleAmong, made, used]

theorem SymbolTable.ofProgram_perm {p p' : Program} {roles roles' : SymbolTable}
    (perm : p.operations.Perm p'.operations) (accepted : ofProgram p = .ok roles)
    (accepted' : ofProgram p' = .ok roles') : roles = roles' := by
  obtain ⟨-, -, described⟩ := ofProgram_eq_ok.mp accepted
  obtain ⟨-, -, described'⟩ := ofProgram_eq_ok.mp accepted'
  cases roles
  cases roles'
  refine congrArg SymbolTable.mk (IntMap.ext_get? fun tensor => ?_)
  rw [described tensor, described' tensor, roleAmong_perm perm]

theorem ShapeTable.infer_perm {ε : Type} [ExtentAlgebra ε] {p p' : Program}
    (perm : p.operations.Perm p'.operations) (single : SingleAssignment p.operations)
    (single' : SingleAssignment p'.operations) (given : GivenShapes ε) {table : ShapeTable ε}
    (inferred : infer p given = .ok table) : infer p' given = .ok table := by
  obtain ⟨start, begun, run⟩ := Outcome.bind_eq_ok.mp inferred
  refine Outcome.bind_eq_ok.mpr ⟨start, begun, ?_⟩
  exact run_of_settles single' ((settles_of_run single run).perm perm)

namespace Codegen

theorem inferred_perm {ε : Type} [ExtentAlgebra ε] {p p' : Program} (perm : p.operations.Perm p'.operations)
    (single : SingleAssignment p.operations) (single' : SingleAssignment p'.operations)
    {given : Option (GivenShapes ε)} {shapes : Option (ShapeTable ε)} (worked : inferred p given = .ok shapes) :
    inferred p' given = .ok shapes := by
  cases given with
  | none => exact worked
  | some given =>
    obtain ⟨table, found, rfl⟩ := Outcome.map_eq_ok.mp worked
    exact Outcome.map_eq_ok.mpr ⟨table, ShapeTable.infer_perm perm single single' given found, rfl⟩

end Codegen

open Codegen in
/-- Two accepted orders of the same operations give the same roles and, from every choice
of given shapes over any extents, the same shapes. Functions generated for them have the
same parameters and the same result and carry out the same parts. -/
theorem Program.order_is_irrelevant (ε : Type) [ExtentAlgebra ε] {p p' : Program} {roles roles' : SymbolTable}
    (perm : p.operations.Perm p'.operations) (accepted : SymbolTable.ofProgram p = .ok roles)
    (accepted' : SymbolTable.ofProgram p' = .ok roles') :
    roles = roles' ∧
    (∀ (given : GivenShapes ε) table, ShapeTable.infer p given = .ok table ↔ ShapeTable.infer p' given = .ok table) ∧
    ∀ name (given : Option (GivenShapes ε)) source, compile name p given = .ok source →
      ∃ parts parts' : List (List Source.Statement), parts.Perm parts' ∧
        source = scaffold name (roles.inputs.map tensorName)
          (parts.flatten ++ [resultStatement roles.outputs]) ∧
        compile name p' given = .ok (scaffold name (roles.inputs.map tensorName)
          (parts'.flatten ++ [resultStatement roles.outputs])) := by
  obtain ⟨-, single, -⟩ := SymbolTable.ofProgram_eq_ok.mp accepted
  obtain ⟨-, single', -⟩ := SymbolTable.ofProgram_eq_ok.mp accepted'
  obtain rfl := SymbolTable.ofProgram_perm perm accepted accepted'
  refine ⟨rfl, fun given table => ⟨?_, ?_⟩, fun name given source compiled => ?_⟩
  · exact ShapeTable.infer_perm perm single single' given
  · exact ShapeTable.infer_perm perm.symm single' single given
  · obtain ⟨table, shapes, parts, known, worked, generated, rfl⟩ := compile_eq_ok.mp compiled
    obtain rfl : table = roles := Except.ok.inj (known.symm.trans accepted)
    obtain ⟨parts', moved, generated'⟩ := Outcome.mapM_perm perm generated
    exact ⟨parts, parts', moved, rfl,
      compile_parts accepted' (inferred_perm perm single single' worked) generated' name⟩

/-- A matrix is turned, a tensor with four axes is split after three of them, and the
matrix is joined with the second factor. The axes of the matrix are known in part, those
of the other tensor not at all; a shape that is given for the result is replaced. -/
theorem Program.order_is_irrelevant_turnFactorJoin :
    let turn : Operation := .transposition ⟨0, [1, 0], 2, by decide⟩
    let factor : Operation := .split ⟨1, 4, 3, 3, 4, by decide, by decide⟩
    let join : Operation :=
      .contraction ⟨[⟨2, [0, 1]⟩, ⟨4, [1, 2]⟩], [0, 2], 5, by decide, by decide, by decide⟩
    let p : Program := ⟨[turn, factor, join]⟩
    let p' : Program := ⟨[factor, turn, join]⟩
    let given : GivenShapes Extent := [(0, [.datum (.int 2), .datum (.text "n")]), (5, [.datum (.int 9)])]
    ∃ roles table, SymbolTable.ofProgram p = .ok roles ∧ SymbolTable.ofProgram p' = .ok roles ∧
      ShapeTable.infer p given = .ok table ∧ ShapeTable.infer p' given = .ok table ∧
      table.shape 1 = .ok (ShapeTable.freshShape 1 4) ∧
      table.shape 5 = .ok [.symbol "n", ShapeTable.freshSymbol 1 3] := by
  intro turn factor join p p' given
  let roles : SymbolTable := ⟨.ofList [(0, ⟨true, false⟩), (1, ⟨true, false⟩), (2, ⟨false, false⟩),
    (3, ⟨false, true⟩), (4, ⟨false, false⟩), (5, ⟨false, true⟩)]⟩
  have accepted : SymbolTable.ofProgram p = .ok roles := rfl
  have accepted' : SymbolTable.ofProgram p' = .ok roles := rfl
  have swapped : p.operations.Perm p'.operations := .swap factor turn [join]
  obtain ⟨-, same, -⟩ := Program.order_is_irrelevant Extent swapped accepted accepted'
  obtain ⟨table, worked, first, last⟩ : ∃ table, ShapeTable.infer p given = .ok table ∧
      table.shape 1 = .ok (ShapeTable.freshShape 1 4) ∧
      table.shape 5 = .ok [.symbol "n", ShapeTable.freshSymbol 1 3] := ⟨_, rfl, rfl, rfl⟩
  exact ⟨roles, table, accepted, accepted', worked, (same given table).mp worked, first, last⟩

end TensorNetwork
