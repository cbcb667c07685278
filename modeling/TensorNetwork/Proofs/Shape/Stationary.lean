import TensorNetwork.Proofs.Shape.Table
import TensorNetwork.Proofs.SingleAssignment

/-! What a table of shapes ends with, said without the order of the operations. A step
looks only at the tensors of its operation, and later steps leave these alone. So a
table is the end of a run exactly if every operation, repeated on it, changes nothing,
and tensors that nothing produces have the shapes they had or symbols invented for
them. -/
namespace TensorNetwork

/-- The first of several operations: the others produce none of its tensors. -/
theorem SingleAssignment.of_cons {op : Operation} {rest : List Operation} (single : SingleAssignment (op :: rest)) :
    SingleAssignment rest ∧ (∀ tensor ∈ op.outputs, tensor ∉ op.inputs) ∧
      ∀ tensor ∈ op.inputs ++ op.outputs, tensor ∉ produced rest := by
  refine ⟨fun before o after split => ?_, (single [] op rest rfl).unused, fun tensor occurs => ?_⟩
  · have admits := single (op :: before) o after (by simp [split])
    refine ⟨admits.known, admits.nodup, admits.unused, fun tensor output used => ?_, fun tensor output made => ?_⟩
    · exact admits.unconsumed tensor output (List.mem_append_right _ used)
    · exact admits.unproduced tensor output (List.mem_append_right _ made)
  · have first : SingleAssignment ([] ++ op :: rest) := single
    exact first.not_produced_later occurs

namespace ShapeTable
variable {ε : Type} [ExtentAlgebra ε] {table next other : ShapeTable ε} {tensor : TensorId}

/-- A tensor has its shape already, or has yet to get symbols for its axes. -/
def Precedes (table next : ShapeTable ε) (tensor : TensorId) : Prop :=
  next.shapes.get? tensor = table.shapes.get? tensor ∨
    table.shapes.get? tensor = none ∧ ∃ rank, next.shapes.get? tensor = some (freshShape tensor rank)

theorem Precedes.known {shape : Shape ε} (precedes : table.Precedes next tensor)
    (known : table.shapes.get? tensor = some shape) : next.shapes.get? tensor = some shape := by
  rcases precedes with same | ⟨unknown, -⟩
  · rw [same, known]
  · rw [unknown] at known
    cases known

theorem Precedes.trans {last : ShapeTable ε} (first : table.Precedes next tensor) (second : next.Precedes last tensor) :
    table.Precedes last tensor := by
  rcases first with same | ⟨unknown, rank, invented⟩
  · rwa [Precedes, ← same]
  · exact .inr ⟨unknown, rank, second.known invented⟩

/-- A tensor is used with its shape, whichever table it is looked up in. -/
theorem use_spec {rank : Nat} {shape : Shape ε} (used : table.use tensor rank = .ok (shape, next)) :
    shape.length = rank ∧ next.shapes.get? tensor = some shape ∧ table.Precedes next tensor ∧
      ∀ other, tensor ≠ other → next.shapes.get? other = table.shapes.get? other := by
  unfold use at used
  split at used
  · rename_i unknown
    cases used
    have invented : (table.assign tensor (freshShape tensor rank)).shapes.get? tensor =
        some (freshShape tensor rank) := by rw [get?_assign, if_pos rfl]
    refine ⟨freshShape_length tensor rank, invented, .inr ⟨unknown, rank, invented⟩, fun other apart => ?_⟩
    rw [get?_assign, if_neg apart]
  · rename_i held known
    split at used
    · rename_i ranked
      cases used
      exact ⟨ranked, known, .inl rfl, fun _ _ => rfl⟩
    · cases used

theorem use_of_precedes {rank : Nat} {shape : Shape ε} (precedes : other.Precedes next tensor)
    (known : next.shapes.get? tensor = some shape) (ranked : shape.length = rank) :
    other.use tensor rank = .ok (shape, other.assign tensor shape) := by
  rcases precedes with same | ⟨unknown, n, invented⟩
  · have held := same.symm.trans known
    have unchanged : other.assign tensor shape = other := by
      apply ext_shapes
      intro u
      rw [get?_assign]
      split
      · rename_i here
        rw [← here, held]
      · rfl
    simp [use, held, ranked, unchanged]
  · have fresh : shape = freshShape tensor n := Option.some.inj (known.symm.trans invented)
    have sized : n = rank := by rw [← ranked, fresh, freshShape_length]
    simp [use, unknown, fresh, sized]

/-- A table after some tensors have been used: these are known, all others as before. -/
structure Spreads (tensors : List TensorId) (table next : ShapeTable ε) : Prop where
  known : ∀ tensor ∈ tensors, ∃ shape, next.shapes.get? tensor = some shape
  precedes : ∀ tensor, table.Precedes next tensor
  others : ∀ tensor, tensor ∉ tensors → next.shapes.get? tensor = table.shapes.get? tensor

theorem bindOperands_spec {operands : List Operand} {bound bound' : IntMap ε}
    (run : operands.foldlM bindOperand (table, bound) = .ok (next, bound')) :
    Spreads (operands.map Operand.tensor) table next ∧
      ∀ {other : ShapeTable ε}, (∀ o ∈ operands, other.Precedes next o.tensor) →
        operands.foldlM bindOperand (other, bound) =
          .ok (other.adopt next (operands.map Operand.tensor), bound') := by
  induction operands generalizing table bound with
  | nil =>
    cases run
    exact ⟨⟨by simp, fun _ => .inl rfl, fun _ _ => rfl⟩, fun _ => rfl⟩
  | cons o rest ih =>
    rw [List.foldlM_cons, Outcome.bind_eq_ok] at run
    obtain ⟨⟨middle, bound₁⟩, first, later⟩ := run
    obtain ⟨⟨shape, reached⟩, used, first⟩ := Outcome.bind_eq_ok.mp first
    obtain ⟨bound₂, axes, done⟩ := Outcome.bind_eq_ok.mp first
    cases done
    obtain ⟨ranked, held, precedes, apart⟩ := use_spec used
    obtain ⟨spreads, follows⟩ := ih later
    have kept := (spreads.precedes o.tensor).known held
    refine ⟨⟨?_, fun tensor => ?_, fun tensor missing => ?_⟩, fun {other} ready => ?_⟩
    · rw [List.map_cons]
      exact List.forall_mem_cons.mpr ⟨⟨shape, kept⟩, spreads.known⟩
    · by_cases same : o.tensor = tensor
      · exact same ▸ precedes.trans (spreads.precedes o.tensor)
      · have before : table.Precedes middle tensor := .inl (apart tensor same)
        exact before.trans (spreads.precedes tensor)
    · rw [List.map_cons, List.mem_cons, not_or] at missing
      rw [spreads.others tensor missing.2, apart tensor (Ne.symm missing.1)]
    · obtain ⟨here, there⟩ := List.forall_mem_cons.mp ready
      have assigned : ∀ p ∈ rest, (other.assign o.tensor shape).Precedes next p.tensor := by
        intro p member
        by_cases same : o.tensor = p.tensor
        · exact .inl (by rw [get?_assign, if_pos same, ← same, kept])
        · simpa [Precedes, get?_assign, same] using there p member
      rw [List.foldlM_cons, Outcome.bind_eq_ok]
      refine ⟨(other.assign o.tensor shape, bound₁), ?_, ?_⟩
      · rw [bindOperand, Outcome.bind_eq_ok]
        exact ⟨_, use_of_precedes here kept ranked, Outcome.bind_eq_ok.mpr ⟨bound₁, axes, rfl⟩⟩
      · rw [follows assigned, List.map_cons, adopt, adopt, List.foldl_cons, kept]
        rfl

theorem use_spreads {rank : Nat} {shape : Shape ε} (used : table.use tensor rank = .ok (shape, next)) :
    Spreads [tensor] table next ∧
      ∀ {other : ShapeTable ε}, (∀ t ∈ [tensor], other.Precedes next t) →
        other.use tensor rank = .ok (shape, other.adopt next [tensor]) := by
  obtain ⟨ranked, held, precedes, apart⟩ := use_spec used
  refine ⟨⟨by simp [held], fun t => ?_, fun t missing => ?_⟩, fun {other} ready => ?_⟩
  · by_cases same : tensor = t
    · exact same ▸ precedes
    · exact .inl (apart t same)
  · exact apart t fun same => missing (by simp [same])
  · rw [use_of_precedes (ready tensor List.mem_cons_self) held ranked, adopt, List.foldl_cons, held]
    rfl

/-- A step that looks only at its inputs and changes only its outputs. From another
table, in which the inputs have the same shapes or can still get them, it leads to
the same shapes. -/
structure Local (step : ShapeTable ε → Except Error (ShapeTable ε)) (inputs outputs : List TensorId)
    (table next : ShapeTable ε) : Prop where
  known : ∀ tensor ∈ inputs ++ outputs, ∃ shape, next.shapes.get? tensor = some shape
  precedes : ∀ tensor, tensor ∉ outputs → table.Precedes next tensor
  others : ∀ tensor, tensor ∉ inputs ++ outputs → next.shapes.get? tensor = table.shapes.get? tensor
  again : ∀ {other : ShapeTable ε}, (∀ tensor ∈ inputs, other.Precedes next tensor) →
    step other = .ok (other.adopt next (inputs ++ outputs))

/-- A step that uses its inputs and then writes its outputs is local. -/
theorem Spreads.isLocal {step : ShapeTable ε → Except Error (ShapeTable ε)} {inputs : List TensorId}
    (spreads : Spreads inputs table next) (pairs : List (TensorId × Shape ε))
    (unused : ∀ tensor ∈ pairs.map Prod.fst, tensor ∉ inputs)
    (follows : ∀ {other : ShapeTable ε}, (∀ tensor ∈ inputs, other.Precedes next tensor) →
      step other = .ok ((other.adopt next inputs).assignAll pairs)) :
    Local step inputs (pairs.map Prod.fst) table (next.assignAll pairs) := by
  have input : ∀ tensor ∈ inputs, ∀ table,
      (assignAll table pairs).shapes.get? tensor = table.shapes.get? tensor := by
    intro tensor member
    rcases get?_assignAll pairs tensor with ⟨output, -⟩ | ⟨-, kept⟩
    · exact absurd member (unused tensor output)
    · exact kept
  have known : ∀ tensor ∈ inputs ++ pairs.map Prod.fst,
      ∃ shape, (next.assignAll pairs).shapes.get? tensor = some shape := by
    intro tensor member
    rcases get?_assignAll pairs tensor with ⟨-, shape, written⟩ | ⟨missing, kept⟩
    · exact ⟨shape, written next⟩
    · rw [kept]
      exact spreads.known tensor ((List.mem_append.mp member).resolve_right missing)
  refine ⟨known, fun tensor missing => ?_, fun tensor missing => ?_, fun {other} ready => ?_⟩
  · rcases get?_assignAll pairs tensor with ⟨output, -⟩ | ⟨-, kept⟩
    · exact absurd output missing
    · rw [Precedes, kept]
      exact spreads.precedes tensor
  · rw [List.mem_append, not_or] at missing
    rcases get?_assignAll pairs tensor with ⟨output, -⟩ | ⟨-, kept⟩
    · exact absurd output missing.2
    · rw [kept, spreads.others tensor missing.1]
  · rw [follows fun tensor member => by simpa only [Precedes, input tensor member] using ready tensor member]
    refine congrArg Except.ok (ext_shapes fun tensor => ?_)
    rw [get?_adopt known]
    rcases get?_assignAll pairs tensor with ⟨output, shape, written⟩ | ⟨missing, kept⟩
    · rw [written, if_pos (List.mem_append_right _ output), written]
    · rw [kept, get?_adopt spreads.known, kept]
      simp [missing]

theorem contract_local {c : Contraction} (unused : c.output ∉ c.inputs) (stepped : table.contract c = .ok next) :
    Local (fun table => table.contract c) c.inputs [c.output] table next := by
  rw [contract, Outcome.bind_eq_ok] at stepped
  obtain ⟨⟨used, bound⟩, operands, stepped⟩ := stepped
  obtain ⟨shape, kept, done⟩ := Outcome.bind_eq_ok.mp stepped
  cases done
  obtain ⟨spreads, follows⟩ := bindOperands_spec operands
  refine spreads.isLocal [(c.output, shape)]
    (by simpa [Contraction.inputs] using unused) fun {other} ready => ?_
  rw [contract, Outcome.bind_eq_ok]
  refine ⟨_, follows fun o member => ready o.tensor (List.mem_map_of_mem member), ?_⟩
  exact Outcome.bind_eq_ok.mpr ⟨shape, kept, rfl⟩

theorem transpose_local {t : Transposition} (unused : t.output ≠ t.input) (stepped : table.transpose t = .ok next) :
    Local (fun table => table.transpose t) [t.input] [t.output] table next := by
  rw [transpose, Outcome.bind_eq_ok] at stepped
  obtain ⟨⟨shape, used⟩, use, done⟩ := stepped
  cases done
  obtain ⟨spreads, follows⟩ := use_spreads use
  refine spreads.isLocal [(t.output, t.arrange shape)] (by simpa using unused) fun {other} ready => ?_
  rw [transpose, Outcome.bind_eq_ok]
  exact ⟨_, follows ready, rfl⟩

theorem split_local {s : Split} (left : s.q ≠ s.input) (right : s.r ≠ s.input)
    (stepped : table.split s = .ok next) :
    Local (fun table => table.split s) [s.input] [s.q, s.r] table next := by
  rw [split, Outcome.bind_eq_ok] at stepped
  obtain ⟨⟨shape, used⟩, use, done⟩ := stepped
  cases done
  obtain ⟨spreads, follows⟩ := use_spreads use
  refine spreads.isLocal [(s.q, shape.take s.left ++ [bond s.left shape]),
    (s.r, bond s.left shape :: shape.drop s.left)] (by simp [left, right]) fun {other} ready => ?_
  rw [split, Outcome.bind_eq_ok]
  exact ⟨_, follows ready, rfl⟩

theorem step_local {op : Operation} (unused : ∀ tensor ∈ op.outputs, tensor ∉ op.inputs)
    (stepped : table.step op = .ok next) :
    Local (fun table => table.step op) op.inputs op.outputs table next := by
  cases op with
  | contraction c => exact contract_local (unused c.output List.mem_cons_self) stepped
  | transposition t =>
    have apart := unused t.output List.mem_cons_self
    exact transpose_local (by simpa [Operation.inputs] using apart) stepped
  | split s =>
    have left := unused s.q List.mem_cons_self
    have right := unused s.r (by simp [Operation.outputs])
    simp only [Operation.inputs, List.mem_singleton] at left right
    exact split_local left right stepped
  | foreign f => cases stepped

/-- The end of a run, without the order of its steps. -/
structure Settles (ops : List Operation) (start final : ShapeTable ε) : Prop where
  stationary : ∀ op ∈ ops, final.step op = .ok final
  precedes : ∀ tensor, tensor ∉ produced ops → start.Precedes final tensor
  untouched : ∀ tensor, tensor ∉ consumed ops → tensor ∉ produced ops →
    final.shapes.get? tensor = start.shapes.get? tensor

theorem settles_of_run {ops : List Operation} {start final : ShapeTable ε} (single : SingleAssignment ops)
    (run : ops.foldlM step start = .ok final) : Settles ops start final := by
  induction ops generalizing start with
  | nil =>
    cases run
    exact ⟨by simp, fun _ _ => .inl rfl, fun _ _ _ => rfl⟩
  | cons op rest ih =>
    rw [List.foldlM_cons, Outcome.bind_eq_ok] at run
    obtain ⟨middle, stepped, later⟩ := run
    obtain ⟨others, unused, unmade⟩ := single.of_cons
    have here := step_local unused stepped
    have settles := ih others later
    -- The tensors of the first operation keep the shapes that it left them with.
    have kept : ∀ tensor ∈ op.inputs ++ op.outputs, final.shapes.get? tensor = middle.shapes.get? tensor := by
      intro tensor occurs
      obtain ⟨shape, known⟩ := here.known tensor occurs
      rw [known]
      exact (settles.precedes tensor (unmade tensor occurs)).known known
    refine ⟨List.forall_mem_cons.mpr ⟨?_, settles.stationary⟩, fun tensor missing => ?_,
      fun tensor unread missing => ?_⟩
    · rw [here.again fun tensor used => .inl (kept tensor (List.mem_append_left _ used)).symm]
      refine congrArg Except.ok (ext_shapes fun tensor => ?_)
      rw [get?_adopt here.known]
      split
      · rename_i occurs
        rw [kept tensor occurs]
      · rfl
    · obtain ⟨output, later⟩ : tensor ∉ op.outputs ∧ tensor ∉ produced rest := by
        simpa [produced, not_or] using missing
      exact (here.precedes tensor output).trans (settles.precedes tensor later)
    · simp only [consumed, produced, List.flatMap_cons, List.mem_append, not_or] at unread missing
      rw [settles.untouched tensor unread.2 missing.2]
      exact here.others tensor (by simp [unread.1, missing.1])

theorem run_of_settles {ops : List Operation} {start final : ShapeTable ε} (single : SingleAssignment ops)
    (settles : Settles ops start final) : ops.foldlM step start = .ok final := by
  induction ops generalizing start with
  | nil =>
    have same : final = start :=
      ext_shapes fun tensor => settles.untouched tensor (by simp [consumed]) (by simp [produced])
    rw [same]
    rfl
  | cons op rest ih =>
    obtain ⟨others, unused, unmade⟩ := single.of_cons
    obtain ⟨first, later⟩ := List.forall_mem_cons.mp settles.stationary
    have here := step_local unused first
    have missing : ∀ tensor, tensor ∉ op.outputs → tensor ∉ produced rest →
        tensor ∉ produced (op :: rest) := by
      intro tensor output later
      rw [produced, List.flatMap_cons, List.mem_append, not_or]
      exact ⟨output, later⟩
    have stepped := here.again fun tensor used => settles.precedes tensor
      (missing tensor (fun output => unused tensor output used) (unmade tensor (List.mem_append_left _ used)))
    rw [List.foldlM_cons, Outcome.bind_eq_ok]
    refine ⟨_, stepped, ih others ⟨later, fun tensor unproduced => ?_, fun tensor unread unproduced => ?_⟩⟩
    · rw [Precedes, get?_adopt here.known]
      split
      · exact .inl rfl
      · rename_i absent
        rw [List.mem_append, not_or] at absent
        exact settles.precedes tensor (missing tensor absent.2 unproduced)
    · rw [get?_adopt here.known]
      split
      · rfl
      · rename_i absent
        rw [List.mem_append, not_or] at absent
        refine settles.untouched tensor ?_ (missing tensor absent.2 unproduced)
        rw [consumed, List.flatMap_cons, List.mem_append, not_or]
        exact ⟨absent.1, unread⟩

theorem Settles.perm {ops ops' : List Operation} {start final : ShapeTable ε} (perm : ops.Perm ops')
    (settles : Settles ops start final) : Settles ops' start final where
  stationary op member := settles.stationary op (perm.mem_iff.mpr member)
  precedes tensor missing := settles.precedes tensor fun made => missing ((perm.flatMap_right _).mem_iff.mp made)
  untouched tensor unread missing := settles.untouched tensor
    (fun used => unread ((perm.flatMap_right _).mem_iff.mp used))
    fun made => missing ((perm.flatMap_right _).mem_iff.mp made)

end ShapeTable
end TensorNetwork
