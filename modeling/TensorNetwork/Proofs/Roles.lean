import TensorNetwork.Proofs.SingleAssignment

/-! The roles of tensors without regard to the order of operations. One pass over
a program refuses it, or finds the roles that the whole program gives. A program
is refused for its outputs only if it has no operations: the tensors of the last
operation are used by nothing. -/
namespace TensorNetwork

theorem mem_consumed {ops : List Operation} {tensor : TensorId} :
    tensor ∈ consumed ops ↔ ∃ op ∈ ops, tensor ∈ op.inputs :=
  List.mem_flatMap

theorem mem_produced {ops : List Operation} {tensor : TensorId} :
    tensor ∈ produced ops ↔ ∃ op ∈ ops, tensor ∈ op.outputs :=
  List.mem_flatMap

/-- A list without repetitions, looked at member by member. -/
theorem nodup_iff_split {α : Type} {l : List α} :
    l.Nodup ↔ ∀ front a back, l = front ++ a :: back → a ∉ front := by
  constructor
  · rintro nodup front a back rfl earlier
    exact (List.nodup_append.mp nodup).2.2 a earlier a List.mem_cons_self rfl
  · intro fresh
    induction l using List.reverseRecOn with
    | nil => exact .nil
    | append_singleton front last ih =>
      have before : front.Nodup := ih fun f a back split => fresh f a (back ++ [last]) (by simp [split])
      have new := fresh front last [] rfl
      refine List.nodup_append.mpr ⟨before, List.pairwise_singleton _ last, ?_⟩
      rintro a member b here rfl
      exact new (List.mem_singleton.mp here ▸ member)

/-- What an operation may produce after others, said of one tensor at a time. -/
theorem admits_iff {before : List Operation} {op : Operation} :
    Admits before op ↔ op.Known ∧ ∀ front tensor back, op.outputs = front ++ tensor :: back →
      (∀ earlier ∈ before, tensor ∉ earlier.inputs ∧ tensor ∉ earlier.outputs) ∧
        tensor ∉ op.inputs ∧ tensor ∉ front := by
  constructor
  · intro admits
    refine ⟨admits.known, fun front tensor back split => ?_⟩
    have output : tensor ∈ op.outputs := by simp [split]
    refine ⟨fun earlier member => ⟨fun used => ?_, fun made => ?_⟩, admits.unused tensor output, ?_⟩
    · exact admits.unconsumed tensor output (mem_consumed.mpr ⟨earlier, member, used⟩)
    · exact admits.unproduced tensor output (mem_produced.mpr ⟨earlier, member, made⟩)
    · exact nodup_iff_split.mp admits.nodup front tensor back split
  · rintro ⟨known, fresh⟩
    have one : ∀ tensor ∈ op.outputs,
        (∀ earlier ∈ before, tensor ∉ earlier.inputs ∧ tensor ∉ earlier.outputs) ∧ tensor ∉ op.inputs := by
      intro tensor output
      obtain ⟨front, back, split⟩ := List.append_of_mem output
      obtain ⟨unmentioned, unused, -⟩ := fresh front tensor back split
      exact ⟨unmentioned, unused⟩
    refine ⟨known, ?_, fun tensor output => (one tensor output).2, ?_, ?_⟩
    · exact nodup_iff_split.mpr fun front tensor back split => (fresh front tensor back split).2.2
    · intro tensor output used
      obtain ⟨earlier, member, input⟩ := mem_consumed.mp used
      exact ((one tensor output).1 earlier member).1 input
    · intro tensor output made
      obtain ⟨earlier, member, old⟩ := mem_produced.mp made
      exact ((one tensor output).1 earlier member).2 old

theorem singleAssignment_iff {ops : List Operation} :
    SingleAssignment ops ↔ (∀ op ∈ ops, op.Known) ∧ ∀ before op after, ops = before ++ op :: after →
      ∀ front tensor back, op.outputs = front ++ tensor :: back →
        (∀ earlier ∈ before, tensor ∉ earlier.inputs ∧ tensor ∉ earlier.outputs) ∧
          tensor ∉ op.inputs ∧ tensor ∉ front := by
  constructor
  · intro single
    exact ⟨single.known, fun before op after split => (admits_iff.mp (single before op after split)).2⟩
  · rintro ⟨known, fresh⟩ before op after split
    have member : op ∈ ops := by simp [split]
    exact admits_iff.mpr ⟨known op member, fresh before op after split⟩

namespace SymbolTable

theorem define_error {roles : IntMap Role} {tensor : TensorId} {e : Error}
    (refused : define roles tensor = .error e) : e.kind = .duplicateOutput := by
  unfold define at refused
  split at refused
  · cases refused
    rfl
  · cases refused

theorem record_error {roles : IntMap Role} {op : Operation} {e : Error}
    (refused : record roles op = .error e) : e.kind = .duplicateOutput ∨ e.kind = .unsupportedOperation := by
  by_cases known : op.Known
  · rw [record_known known] at refused
    obtain ⟨s, tensor, -, duplicate⟩ := Outcome.foldlM_error refused
    exact .inl (define_error duplicate)
  · cases op with
    | foreign f =>
      cases refused
      exact .inr rfl
    | _ => exact absurd trivial known

/-- Recording never complains of missing outputs. -/
theorem recorded_error {ops : List Operation} {roles : IntMap Role} {e : Error}
    (refused : ops.foldlM record roles = .error e) : e.kind ≠ .noOutput := by
  obtain ⟨s, op, -, failed⟩ := Outcome.foldlM_error refused
  rcases record_error failed with duplicate | unsupported
  · simp [duplicate]
  · simp [unsupported]

theorem ofProgram_noOutput {p : Program} :
    (∃ e, ofProgram p = .error e ∧ e.kind = .noOutput) ↔ p.operations = [] := by
  constructor
  · rintro ⟨e, refused, missing⟩
    unfold ofProgram at refused
    cases recorded : p.operations.foldlM record .empty with
    | error cause =>
      rw [recorded] at refused
      cases refused
      exact absurd missing (recorded_error recorded)
    | ok roles =>
      obtain ⟨single, described⟩ := recorded_of_ok recorded
      rw [recorded] at refused
      by_cases none : (SymbolTable.mk roles).outputs = []
      · exact (outputs_eq_nil single described).mp none
      · simp [bind, Except.bind, none] at refused
  · intro empty
    exact ⟨.noOutput, ofProgram_empty empty, rfl⟩

theorem mem_tensors {table : SymbolTable} {ops : List Operation} (described : Describes table.roles ops)
    {tensor : TensorId} : tensor ∈ table.roles.keys ↔ tensor ∈ consumed ops ∨ tensor ∈ produced ops := by
  rw [IntMap.mem_keys, IntMap.contains, described tensor, roleAmong]
  by_cases made : tensor ∈ produced ops <;> by_cases used : tensor ∈ consumed ops <;> simp [made, used]

theorem role_eq_ok {table : SymbolTable} {tensor : TensorId} {role : Role} :
    table.role tensor = .ok role ↔ table.roles.get? tensor = some role := by
  unfold SymbolTable.role
  cases table.roles.get? tensor <;> simp

/-- The role of a tensor puts it among the inputs and the outputs. -/
theorem mem_withRole_of_role {p : Role → Bool} {table : SymbolTable} {tensor : TensorId} {role : Role}
    (known : table.role tensor = .ok role) : p role = true ↔ tensor ∈ table.withRole p := by
  simp [mem_withRole, role_eq_ok.mp known]

/-- A program has a table exactly if it has operations, all of known kinds, whose
tensors are new when they are produced. The table lists every tensor; the inputs
are used and never produced, the outputs are produced and never used. -/
theorem ofProgram_specification (p : Program) :
    ((∃ table, ofProgram p = .ok table) ↔
      p.operations ≠ [] ∧ (∀ op ∈ p.operations, op.Known) ∧
        ∀ before op after, p.operations = before ++ op :: after →
          ∀ front tensor back, op.outputs = front ++ tensor :: back →
            (∀ earlier ∈ before, tensor ∉ earlier.inputs ∧ tensor ∉ earlier.outputs) ∧
              tensor ∉ op.inputs ∧ tensor ∉ front) ∧
    ((∃ e, ofProgram p = .error e ∧ e.kind = .noOutput) ↔ p.operations = []) ∧
    ∀ table, ofProgram p = .ok table →
      (∀ tensor, tensor ∈ table.roles.keys ↔
        ∃ op ∈ p.operations, tensor ∈ op.inputs ∨ tensor ∈ op.outputs) ∧
      (∀ tensor, tensor ∈ table.inputs ↔
        (∃ op ∈ p.operations, tensor ∈ op.inputs) ∧ ∀ op ∈ p.operations, tensor ∉ op.outputs) ∧
      (∀ tensor, tensor ∈ table.outputs ↔
        (∃ op ∈ p.operations, tensor ∈ op.outputs) ∧ ∀ op ∈ p.operations, tensor ∉ op.inputs) ∧
      (∀ tensor role, table.role tensor = .ok role →
        (role.isInput = true ↔ tensor ∈ table.inputs) ∧ (role.isOutput = true ↔ tensor ∈ table.outputs)) ∧
      table.inputs.Pairwise (· < ·) ∧ table.outputs.Pairwise (· < ·) ∧ table.roles.keys.Pairwise (· < ·) := by
  refine ⟨?_, ofProgram_noOutput, fun table accepted => ?_⟩
  · rw [← singleAssignment_iff]
    constructor
    · rintro ⟨table, accepted⟩
      obtain ⟨nonempty, single, -⟩ := ofProgram_eq_ok.mp accepted
      exact ⟨nonempty, single⟩
    · rintro ⟨nonempty, single⟩
      exact ofProgram_accepts nonempty single
  · obtain ⟨-, -, described⟩ := ofProgram_eq_ok.mp accepted
    refine ⟨fun tensor => ?_, fun tensor => ?_, fun tensor => ?_, fun tensor role known => ?_,
      withRole_ascending _ table, withRole_ascending _ table, List.pairwise_map.mpr table.roles.ascending⟩
    · rw [mem_tensors described, mem_consumed, mem_produced, ← exists_or]
      simp only [← and_or_left]
    · rw [mem_inputs described, mem_consumed, mem_produced]
      simp
    · rw [mem_outputs described, mem_consumed, mem_produced]
      simp
    · exact ⟨mem_withRole_of_role known, mem_withRole_of_role known⟩

/-- A matrix is used twice, as it is and transposed; one factor of the product is
an output, the other is joined with the matrix again. -/
theorem ofProgram_specification_factors :
    let p : Program := ⟨[.transposition ⟨4, [1, 0], 2, by decide⟩,
      .contraction ⟨[⟨2, [0, 1]⟩, ⟨4, [1, 2]⟩], [0, 2], 3, by decide, by decide, by decide⟩,
      .split ⟨3, 2, 1, 7, -1, by decide, by decide⟩,
      .contraction ⟨[⟨7, [0, 1]⟩, ⟨4, [1, 2]⟩], [2], 0, by decide, by decide, by decide⟩]⟩
    ∃ table, ofProgram p = .ok table ∧ table.inputs = [4] ∧ table.outputs = [-1, 0] ∧
      ((2 : TensorId) ∈ table.roles.keys) ∧ (2 : TensorId) ∉ table.outputs := by
  intro p
  refine ⟨⟨.ofList [(-1, ⟨false, true⟩), (0, ⟨false, true⟩), (2, ⟨false, false⟩), (3, ⟨false, false⟩),
    (4, ⟨true, false⟩), (7, ⟨false, false⟩)]⟩, rfl, by decide, by decide, ?_⟩
  obtain ⟨listed, -, outputs, -⟩ := (ofProgram_specification p).2.2 _ rfl
  refine ⟨(listed 2).mpr (by decide), fun output => ?_⟩
  have unused := ((outputs 2).mp output).2
  exact absurd unused (by decide)

end SymbolTable
end TensorNetwork
