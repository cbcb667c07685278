import TensorNetwork.Proofs.Shape.Stationary

/-! How shapes are related at the end of a run. A tensor that an operation has used or
produced keeps its shape, so the table of a whole program relates the tensors of each
operation as the operation did when its turn came, whatever symbols they hold. -/
namespace TensorNetwork.ShapeTable
variable {ε : Type} [ExtentAlgebra ε] {table next : ShapeTable ε}

/-- Where every label has one extent, a contraction gives its result the extents of the
labels that it keeps. -/
theorem contract_output {c : Contraction} {extent : Label → ε}
    (shaped : ∀ o ∈ c.operands, table.shapes.get? o.tensor = some (o.labels.map extent))
    (stepped : table.contract c = .ok next) : next = table.assign c.output (c.kept.map extent) := by
  obtain ⟨⟨used, bound⟩, operands, stepped⟩ := Outcome.bind_eq_ok.mp stepped
  obtain ⟨shape, kept, done⟩ := Outcome.bind_eq_ok.mp stepped
  cases done
  obtain ⟨rfl, binds⟩ : used = table ∧ ∀ label a, bound.get? label = some a → a = extent label := by
    refine Outcome.foldlM_induction
      (P := fun _ state => state.1 = table ∧ ∀ label a, state.2.get? label = some a → a = extent label)
      ⟨rfl, by simp⟩ ?_ operands
    rintro before o after ⟨reached, bound₁⟩ ⟨last, bound₂⟩ split ⟨rfl, held⟩ stepped
    obtain ⟨⟨axes, middle⟩, use, stepped⟩ := Outcome.bind_eq_ok.mp stepped
    obtain ⟨bound₃, run, done⟩ := Outcome.bind_eq_ok.mp stepped
    cases done
    have known := shaped o (by simp [split])
    simp only [ShapeTable.use, known, List.length_map, if_true] at use
    cases use
    refine ⟨rfl, bindAxes_bound held (fun axis member => ?_) run⟩
    rw [← List.map_prod_left_eq_zip] at member
    obtain ⟨label, -, rfl⟩ := List.mem_map.mp member
    rfl
  refine congrArg _ (Outcome.eq_map_of_forall₂ ((Outcome.mapM_eq_ok.mp kept).imp fun label a found => ?_))
  exact (binds label a (keptExtent_eq_ok found)).symm

section Inferred
variable {p : Program} {given : GivenShapes ε} {op : Operation} (single : SingleAssignment p.operations)
  (worked : infer p given = .ok table) (member : op ∈ p.operations)
include single worked member

/-- No operation would change the table of the whole program. -/
theorem infer_stationary : table.step op = .ok table := by
  obtain ⟨start, -, run⟩ := Outcome.bind_eq_ok.mp worked
  exact (settles_of_run single run).stationary op member

theorem infer_known : ∀ tensor ∈ op.inputs ++ op.outputs, ∃ shape, table.shapes.get? tensor = some shape :=
  (step_local (single.separate op member).2 (infer_stationary single worked member)).known

end Inferred

section Operations
variable {p : Program} {given : GivenShapes ε} (single : SingleAssignment p.operations)
  (worked : infer p given = .ok table)
include single worked

theorem infer_transposition {t : Transposition} (member : .transposition t ∈ p.operations) :
    ∃ shape, table.shapes.get? t.input = some shape ∧ shape.length = t.rank ∧
      table.shapes.get? t.output = some (t.arrange shape) := by
  obtain ⟨-, unused⟩ := single.separate _ member
  have apart : t.output ≠ t.input := by simpa [Operation.outputs, Operation.inputs] using unused
  obtain ⟨⟨shape, used⟩, use, done⟩ := Outcome.bind_eq_ok.mp (infer_stationary single worked member)
  obtain ⟨ranked, held, -, -⟩ := use_spec use
  have final := (Except.ok.inj done).symm
  refine ⟨shape, ?_, ranked, ?_⟩
  · rw [final, get?_assign, if_neg apart, held]
  · rw [final, get?_assign, if_pos rfl]

theorem infer_split {s : Split} (member : .split s ∈ p.operations) :
    ∃ shape, table.shapes.get? s.input = some shape ∧ shape.length = s.rank ∧
      table.shapes.get? s.q = some (shape.take s.left ++ [bond s.left shape]) ∧
      table.shapes.get? s.r = some (bond s.left shape :: shape.drop s.left) := by
  obtain ⟨nodup, unused⟩ := single.separate _ member
  obtain ⟨apart, left, right⟩ := split_apart nodup unused
  obtain ⟨⟨shape, used⟩, use, done⟩ := Outcome.bind_eq_ok.mp (infer_stationary single worked member)
  obtain ⟨ranked, held, -, -⟩ := use_spec use
  have final := (Except.ok.inj done).symm
  refine ⟨shape, ?_, ranked, ?_, ?_⟩
  · rw [final, get?_assign, if_neg right.symm, get?_assign, if_neg left.symm, held]
  · rw [final, get?_assign, if_neg apart.symm, get?_assign, if_pos rfl]
  · rw [final, get?_assign, if_pos rfl]

end Operations
end TensorNetwork.ShapeTable
