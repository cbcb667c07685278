import TensorNetwork.Proofs.Codegen.Footprint
import TensorNetwork.Proofs.Codegen.Meaning

/-! The scope of variables in a generated function. Variables belong to the tensors of
operations, so that each is assigned for one operation and read afterwards follows
from single assignment. -/
namespace TensorNetwork.Codegen
open Source
variable {ε : Type} [ExtentAlgebra ε]

/-- The statements of several operations, each with its own. -/
def bodyOf (steps : List (Operation × List Statement)) : List Statement := steps.flatMap Prod.snd

/-- A place among all statements is a place among those of one operation. -/
theorem bodyOf_eq_append {steps : List (Operation × List Statement)} {before after : List Statement}
    {statement : Statement} (split : bodyOf steps = before ++ statement :: after) :
    ∃ earlier op front back later, steps = earlier ++ (op, front ++ statement :: back) :: later ∧
      before = bodyOf earlier ++ front := by
  induction steps generalizing before with
  | nil => simp [bodyOf] at split
  | cons step rest ih =>
    obtain ⟨op, part⟩ := step
    have parted : part ++ bodyOf rest = before ++ statement :: after := split
    rcases List.append_eq_append_iff.mp parted with ⟨more, rfl, later⟩ | ⟨more, rfl, here⟩
    · obtain ⟨earlier, o, front, back, others, rfl, rfl⟩ := ih later
      exact ⟨(op, part) :: earlier, o, front, back, others, rfl, by simp [bodyOf]⟩
    · cases more with
      | nil =>
        have first : bodyOf rest = [] ++ statement :: after := here.symm
        obtain ⟨earlier, o, front, back, others, rfl, nothing⟩ := ih first
        refine ⟨(op, before ++ []) :: earlier, o, front, back, others, rfl, ?_⟩
        simp only [bodyOf, List.flatMap_cons, List.append_nil, List.append_assoc]
        rw [← bodyOf, ← nothing, List.append_nil]
      | cons first more =>
        cases here
        exact ⟨[], op, before, more, rest, rfl, rfl⟩

theorem mem_map_tensorName {tensors : List TensorId} {tensor : TensorId} :
    tensorName tensor ∈ tensors.map tensorName ↔ tensor ∈ tensors :=
  List.mem_map_of_injective tensorName_injective

section
variable {steps : List (Operation × List Statement)} {name : String}

theorem mem_writes_bodyOf (footprints : ∀ step ∈ steps, Footprint step.1 step.2) :
    name ∈ writesOf (bodyOf steps) ↔ name ∈ (produced (steps.map Prod.fst)).map tensorName := by
  induction steps with
  | nil => simp [bodyOf, writesOf, produced]
  | cons step rest ih =>
    obtain ⟨first, others⟩ := List.forall_mem_cons.mp footprints
    have parted : writesOf (bodyOf (step :: rest)) = writesOf step.2 ++ writesOf (bodyOf rest) :=
      writesOf_append step.2 (bodyOf rest)
    rw [parted, List.mem_append, first.writes, ih others, ← List.mem_append, ← List.map_append]
    rfl

/-- Code reads no other variables than those of its operations. -/
theorem reads_bodyOf (footprints : ∀ step ∈ steps, Footprint step.1 step.2)
    (needed : name ∈ readsOf (bodyOf steps)) :
    name ∈ (consumed (steps.map Prod.fst) ++ produced (steps.map Prod.fst)).map tensorName := by
  obtain ⟨statement, member, read⟩ := mem_readsOf.mp needed
  obtain ⟨before, after, split⟩ := List.append_of_mem member
  obtain ⟨earlier, op, front, back, later, rfl, -⟩ := bodyOf_eq_append split
  have footprint := footprints (op, front ++ statement :: back) (by simp)
  have named : name ∈ (op.inputs ++ op.outputs).map tensorName := by
    rw [List.map_append]
    rcases footprint.reads front statement back rfl name read with input | written
    · exact List.mem_append_left _ input
    · refine List.mem_append_right _ ((footprint.writes name).mp ?_)
      rw [writesOf_append]
      exact List.mem_append_left _ written
  obtain ⟨tensor, occurs, same⟩ := List.mem_map.mp named
  exact List.mem_map.mpr ⟨tensor, mentioned_of_mem (by simp) occurs, same⟩

theorem uses_bodyOf (footprints : ∀ step ∈ steps, Footprint step.1 step.2) {tensor : TensorId}
    (used : tensor ∈ consumed (steps.map Prod.fst)) : tensorName tensor ∈ readsOf (bodyOf steps) := by
  obtain ⟨op, listed, input⟩ := List.mem_flatMap.mp used
  obtain ⟨step, member, rfl⟩ := List.mem_map.mp listed
  obtain ⟨statement, held, read⟩ := mem_readsOf.mp ((footprints step member).uses tensor input)
  exact mem_readsOf.mpr ⟨statement, List.mem_flatMap.mpr ⟨step, member, held⟩, read⟩

end

/-- What well scoped means for a function of some inputs that carries out steps and
returns outputs. -/
structure WellScoped (inputs outputs : List TensorId) (steps : List (Operation × List Statement)) : Prop where
  /-- The parameters ascend, and are distinct as names. -/
  parameters : inputs.Pairwise (· < ·) ∧ (inputs.map tensorName).Nodup
  needed : ∀ tensor ∈ inputs, tensorName tensor ∈ readsOf (bodyOf steps)
  defined : ∀ before statement after,
    bodyOf steps ++ [resultStatement outputs] = before ++ statement :: after →
    ∀ name ∈ statement.reads, name ∈ inputs.map tensorName ∨ name ∈ writesOf before
  constant : ∀ tensor ∈ inputs, tensorName tensor ∉ writesOf (bodyOf steps)
  /-- A variable belongs to one operation. -/
  owned : ∀ before op part after, steps = before ++ (op, part) :: after → ∀ name ∈ writesOf part,
    name ∉ writesOf (bodyOf before) ∧ name ∉ writesOf (bodyOf after)
  /-- It is assigned again only to restore a factor of a split, which no other
  operation has read by then. -/
  again : ∀ before op part after, steps = before ++ (op, part) :: after →
    (∀ statement ∈ part, statement.writes.Nodup) ∧
    ∀ front statement back, part = front ++ statement :: back → ∀ name ∈ statement.writes,
      name ∈ writesOf front →
        (∃ s tensor, op = .split s ∧ name = tensorName tensor ∧ Restores s tensor statement) ∧
          (writesOf front).count name = 1 ∧ name ∉ readsOf (bodyOf before)
  /-- The input of a split is not assigned from there on. -/
  kept : ∀ before s part after, steps = before ++ (.split s, part) :: after →
    tensorName s.input ∉ writesOf (part ++ bodyOf after)
  returned : outputs.Pairwise (· < ·) ∧ (resultStatement outputs).reads = outputs.map tensorName ∧
    ∀ name, name ∈ outputs.map tensorName ↔ ∃ before op part after, steps = before ++ (op, part) :: after ∧
      name ∈ writesOf part ∧ name ∉ readsOf (bodyOf after)

section
variable {p : Program} {roles : SymbolTable} {steps : List (Operation × List Statement)}

theorem reads_are_defined (accepted : SymbolTable.ofProgram p = .ok roles)
    (listed : p.operations = steps.map Prod.fst) (footprints : ∀ step ∈ steps, Footprint step.1 step.2)
    {before after : List Statement} {statement : Statement}
    (split : bodyOf steps ++ [resultStatement roles.outputs] = before ++ statement :: after) {name : String}
    (read : name ∈ statement.reads) : name ∈ roles.inputs.map tensorName ∨ name ∈ writesOf before := by
  obtain ⟨-, -, described⟩ := SymbolTable.ofProgram_eq_ok.mp accepted
  rcases List.eq_nil_or_concat' after with rfl | ⟨others, last, rfl⟩
  · obtain ⟨rfl, same⟩ := List.append_inj' split rfl
    cases same
    rw [reads_resultStatement] at read
    obtain ⟨tensor, output, rfl⟩ := List.mem_map.mp read
    refine .inr ((mem_writes_bodyOf footprints).mpr (List.mem_map_of_mem ?_))
    exact listed ▸ ((SymbolTable.mem_outputs described).mp output).1
  · have regrouped : bodyOf steps ++ [resultStatement roles.outputs] =
        (before ++ statement :: others) ++ [last] := by simpa using split
    obtain ⟨inside, -⟩ := List.append_inj' regrouped rfl
    obtain ⟨earlier, op, front, back, later, rfl, rfl⟩ := bodyOf_eq_append inside
    have footprint := footprints (op, front ++ statement :: back) (by simp)
    rw [writesOf_append, List.mem_append]
    rcases footprint.reads front statement back rfl name read with input | written
    · obtain ⟨tensor, used, rfl⟩ := List.mem_map.mp input
      rcases input_or_produced accepted (by simpa using listed) used with given | made
      · exact .inl (List.mem_map_of_mem given)
      · have early : ∀ step ∈ earlier, Footprint step.1 step.2 :=
          fun step member => footprints step (by simp [member])
        exact .inr (.inl ((mem_writes_bodyOf early).mpr (List.mem_map_of_mem made)))
    · exact .inr (.inr written)

/-- What an operation produces has not been looked at before it. -/
theorem unseen_before {before after : List (Operation × List Statement)} {op : Operation}
    {part : List Statement} (footprints : ∀ step ∈ before ++ (op, part) :: after, Footprint step.1 step.2)
    (single : SingleAssignment ((before ++ (op, part) :: after).map Prod.fst)) {tensor : TensorId}
    (output : tensor ∈ op.outputs) :
    tensorName tensor ∉ readsOf (bodyOf before) ∧ tensorName tensor ∉ writesOf (bodyOf before) := by
  have earlier : ∀ step ∈ before, Footprint step.1 step.2 := fun step held => footprints step (by simp [held])
  have admits := single (before.map Prod.fst) op (after.map Prod.fst) (by simp)
  have unconsumed := admits.unconsumed tensor output
  have unproduced := admits.unproduced tensor output
  constructor
  · intro read
    have mentioned := mem_map_tensorName.mp (reads_bodyOf earlier read)
    exact (List.mem_append.mp mentioned).elim unconsumed unproduced
  · rw [mem_writes_bodyOf earlier, mem_map_tensorName]
    exact unproduced

theorem unassigned_after {before after : List (Operation × List Statement)} {op : Operation}
    {part : List Statement} (footprints : ∀ step ∈ before ++ (op, part) :: after, Footprint step.1 step.2)
    (single : SingleAssignment ((before ++ (op, part) :: after).map Prod.fst)) {tensor : TensorId}
    (occurs : tensor ∈ op.inputs ++ op.outputs) : tensorName tensor ∉ writesOf (bodyOf after) := by
  have later : ∀ step ∈ after, Footprint step.1 step.2 := fun step held => footprints step (by simp [held])
  rw [mem_writes_bodyOf later, mem_map_tensorName]
  have parted : SingleAssignment (before.map Prod.fst ++ op :: after.map Prod.fst) := by simpa using single
  exact parted.not_produced_later occurs

/-- The outputs are what was assigned and is not read by later operations. -/
theorem returned_iff {outputs : List TensorId} (single : SingleAssignment (steps.map Prod.fst))
    (described : ∀ tensor, tensor ∈ outputs ↔
      tensor ∈ produced (steps.map Prod.fst) ∧ tensor ∉ consumed (steps.map Prod.fst))
    (footprints : ∀ step ∈ steps, Footprint step.1 step.2) (name : String) :
    name ∈ outputs.map tensorName ↔ ∃ before op part after, steps = before ++ (op, part) :: after ∧
      name ∈ writesOf part ∧ name ∉ readsOf (bodyOf after) := by
  constructor
  · intro returned
    obtain ⟨tensor, output, rfl⟩ := List.mem_map.mp returned
    obtain ⟨made, unused⟩ := (described tensor).mp output
    obtain ⟨op, listed, here⟩ := List.mem_flatMap.mp made
    obtain ⟨⟨op, part⟩, member, rfl⟩ := List.mem_map.mp listed
    obtain ⟨before, after, rfl⟩ := List.append_of_mem member
    have later : ∀ step ∈ after, Footprint step.1 step.2 := fun step held => footprints step (by simp [held])
    refine ⟨before, op, part, after, rfl, ?_, fun read => ?_⟩
    · exact ((footprints (op, part) member).writes _).mpr (List.mem_map_of_mem here)
    · -- A later operation would have to use the tensor or to produce it again.
      rcases List.mem_append.mp (mem_map_tensorName.mp (reads_bodyOf later read)) with used | again
      · exact unused (by simpa [consumed] using .inr (.inr (by simpa [consumed] using used)))
      · refine unassigned_after footprints single (List.mem_append_right _ here) ?_
        exact (mem_writes_bodyOf later).mpr (List.mem_map_of_mem again)
  · rintro ⟨before, op, part, after, rfl, written, unread⟩
    have footprint := footprints (op, part) (by simp)
    have later : ∀ step ∈ after, Footprint step.1 step.2 := fun step held => footprints step (by simp [held])
    obtain ⟨tensor, output, rfl⟩ := List.mem_map.mp ((footprint.writes name).mp written)
    have admits := single (before.map Prod.fst) op (after.map Prod.fst) (by simp)
    refine List.mem_map_of_mem ((described tensor).mpr ⟨?_, fun used => ?_⟩)
    · exact List.mem_flatMap.mpr ⟨op, by simp, output⟩
    · rw [List.map_append, List.map_cons, consumed, List.flatMap_append, List.flatMap_cons] at used
      rcases List.mem_append.mp used with early | here
      · exact admits.unconsumed tensor output early
      · rcases List.mem_append.mp here with own | late
        · exact admits.unused tensor output own
        · exact unread (uses_bodyOf later late)

theorem wellScoped_steps (accepted : SymbolTable.ofProgram p = .ok roles)
    (listed : p.operations = steps.map Prod.fst) (footprints : ∀ step ∈ steps, Footprint step.1 step.2) :
    WellScoped roles.inputs roles.outputs steps := by
  obtain ⟨-, single, described⟩ := SymbolTable.ofProgram_eq_ok.mp accepted
  have ascending := SymbolTable.withRole_ascending Role.isInput roles
  rw [listed] at single described
  refine ⟨⟨ascending, ?_⟩, fun tensor input => ?_, fun before statement after split name read => ?_,
    fun tensor input => ?_, ?_, ?_, ?_, SymbolTable.withRole_ascending _ roles, reads_resultStatement _,
    returned_iff single (fun tensor => SymbolTable.mem_outputs described) footprints⟩
  · have distinct : roles.inputs.Nodup := ascending.imp Int.ne_of_lt
    exact distinct.map tensorName_injective
  · exact uses_bodyOf footprints ((SymbolTable.mem_inputs described).mp input).1
  · exact reads_are_defined accepted listed footprints split read
  · rw [mem_writes_bodyOf footprints, mem_map_tensorName]
    exact ((SymbolTable.mem_inputs described).mp input).2
  · rintro before op part after rfl name written
    have footprint := footprints (op, part) (by simp)
    obtain ⟨tensor, output, rfl⟩ := List.mem_map.mp ((footprint.writes name).mp written)
    constructor
    · exact (unseen_before footprints single output).2
    · exact unassigned_after footprints single (List.mem_append_right _ output)
  · rintro before op part after rfl
    have footprint := footprints (op, part) (by simp)
    refine ⟨footprint.distinct, fun front statement back split name written earlier => ?_⟩
    obtain ⟨restores, once⟩ := footprint.again front statement back split name written earlier
    refine ⟨restores, once, ?_⟩
    have own : name ∈ writesOf part := mem_writesOf.mpr ⟨statement, by simp [split], written⟩
    obtain ⟨tensor, output, rfl⟩ := List.mem_map.mp ((footprint.writes name).mp own)
    exact (unseen_before footprints single output).1
  · rintro before s part after rfl
    have footprint := footprints (.split s, part) (by simp)
    have used : s.input ∈ (Operation.split s).inputs := List.mem_cons_self
    rw [writesOf_append, List.mem_append, footprint.writes, mem_map_tensorName, not_or]
    constructor
    · intro output
      exact (single (before.map Prod.fst) (.split s) (after.map Prod.fst) (by simp)).unused _ output used
    · exact unassigned_after footprints single (List.mem_append_left _ used)

end

/-- Generated functions are well scoped: the steps are the operations of the program with
their statements, and the code is made of these. -/
theorem compile_well_scoped {name : String} {p : Program} {given : Option (GivenShapes ε)} {source : Statement}
    (compiled : compile name p given = .ok source) :
    ∃ shapes inputs outputs steps, inferred p given = .ok shapes ∧ p.operations = steps.map Prod.fst ∧
      (∀ step ∈ steps, statements shapes step.1 = .ok step.2) ∧
      source = scaffold name (inputs.map tensorName) (bodyOf steps ++ [resultStatement outputs]) ∧
      WellScoped inputs outputs steps := by
  obtain ⟨roles, shapes, parts, accepted, worked, generated, rfl⟩ := compile_eq_ok.mp compiled
  obtain ⟨-, single, -⟩ := SymbolTable.ofProgram_eq_ok.mp accepted
  obtain ⟨lengths, paired⟩ := List.forall₂_iff_zip.mp (Outcome.mapM_eq_ok.mp generated)
  have listed : p.operations = (p.operations.zip parts).map Prod.fst := (List.map_fst_zip lengths.le).symm
  have body : bodyOf (p.operations.zip parts) = parts.flatten := by
    rw [bodyOf, List.flatMap_def, List.map_snd_zip lengths.ge]
  have statements : ∀ step ∈ p.operations.zip parts, statements shapes step.1 = .ok step.2 :=
    fun step member => paired member
  refine ⟨shapes, roles.inputs, roles.outputs, p.operations.zip parts, worked, listed, statements, by rw [body],
    wellScoped_steps accepted listed fun step member => ?_⟩
  have held : step.1 ∈ p.operations := by
    rw [listed]
    exact List.mem_map_of_mem member
  exact footprint_statements (single.separate step.1 held).1 (statements step member)

/-- Both factors of the split are assigned twice. -/
theorem compile_well_scoped_turnAndSplit :
    ∃ source inputs outputs steps, compile "f" turnAndSplit none = .ok source ∧
      source = scaffold "f" (inputs.map tensorName) (bodyOf steps ++ [resultStatement outputs]) ∧
      WellScoped inputs outputs steps ∧ turnAndSplit.operations = steps.map Prod.fst ∧
      writesOf (bodyOf steps ++ [resultStatement outputs]) = ["T1", "T2", "T3", "T2", "T3", "T4"] := by
  obtain ⟨body, compiled, written⟩ : ∃ body,
      compile "f" turnAndSplit none = .ok (scaffold "f" ["T0"] body) ∧
      writesOf body = ["T1", "T2", "T3", "T2", "T3", "T4"] := ⟨_, rfl, rfl⟩
  obtain ⟨-, inputs, outputs, steps, -, listed, -, made, sound⟩ := compile_well_scoped compiled
  have same : body = bodyOf steps ++ [resultStatement outputs] := by
    simp only [scaffold, Statement.block.injEq, List.cons.injEq, Statement.function.injEq] at made
    exact made.2.2.2.1.2.2
  exact ⟨_, inputs, outputs, steps, compiled, made, sound, listed, same ▸ written⟩

end TensorNetwork.Codegen
