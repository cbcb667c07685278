import TensorNetwork.Proofs.Session.Commit
import TensorNetwork.Proofs.Shape.Completeness

/-! Shapes whose axes all have the extent one. They never disagree, so a program
that uses its tensors with their ranks keeps them so. -/
namespace TensorNetwork

/-- An operation that uses and produces tensors with the ranks that they have. -/
structure Operation.Accords (op : Operation) (ranks : IntMap Nat) : Prop where
  known : op.Known
  bound : op.Bound
  uses : ∀ use ∈ op.uses, ranks.get? use.1 = some use.2
  outputs : List.Forall₂ (fun tensor rank => ranks.get? tensor = some rank) op.outputs op.outputRanks

theorem Operation.Accords.grow {op : Operation} {ranks ranks' : IntMap Nat} (accords : op.Accords ranks)
    (keeps : ∀ tensor rank, ranks.get? tensor = some rank → ranks'.get? tensor = some rank) :
    op.Accords ranks' where
  known := accords.known
  bound := accords.bound
  uses use used := keeps _ _ (accords.uses use used)
  outputs := accords.outputs.imp fun tensor rank known => keeps tensor rank known

theorem Operation.Accords.contracted {c : Contraction} {ranks : IntMap Nat}
    (accords : (Operation.contraction c).Accords ranks) : ranks.get? c.output = some c.kept.length := by
  simpa [Operation.outputs, outputRanks] using accords.outputs

theorem Operation.Accords.factors {s : Split} {ranks : IntMap Nat} (accords : (Operation.split s).Accords ranks) :
    ranks.get? s.q = some (s.left + 1) ∧ ranks.get? s.r = some (s.right + 1) := by
  simpa [Operation.outputs, outputRanks] using accords.outputs

/-- As many ones as the rank of a tensor says. -/
def units (ranks : IntMap Nat) (tensor : TensorId) : List Int :=
  List.replicate ((ranks.get? tensor).getD 0) 1

theorem units_eq {ranks : IntMap Nat} {tensor : TensorId} {rank : Nat} (known : ranks.get? tensor = some rank) :
    units ranks tensor = List.replicate rank 1 := by
  rw [units, known, Option.getD_some]

theorem Split.bond_units (s : Split) (rank : Nat) : s.bond (List.replicate rank 1) = 1 := by
  simp [Split.bond, List.take_replicate, List.drop_replicate]

theorem Operation.Accords.wellShaped {op : Operation} {ranks : IntMap Nat} (accords : op.Accords ranks) :
    op.WellShaped (units ranks) := by
  have uses := accords.uses
  have outputs := accords.outputs
  cases op with
  | contraction c =>
    refine ⟨fun _ => 1, fun o member => ?_, accords.bound, ?_⟩
    · rw [units_eq (uses _ (List.mem_map_of_mem member)), List.map_const']
    · rw [units_eq accords.contracted, List.map_const']
  | transposition t =>
    cases outputs with
    | cons output _ =>
      have sized : (List.replicate t.rank (1 : Int)).length = t.rank := List.length_replicate
      rw [WellShaped, units_eq (uses _ List.mem_cons_self), units_eq output]
      refine ⟨sized, Eq.symm (List.eq_replicate_iff.mpr ⟨t.arrange_length sized, fun n member => ?_⟩)⟩
      exact List.eq_of_mem_replicate (t.mem_of_arrange member)
  | split s =>
    obtain ⟨q, r⟩ := accords.factors
    have below : min s.left s.rank = s.left := Nat.min_eq_left s.left_lt.le
    rw [WellShaped, units_eq (uses _ List.mem_cons_self), units_eq q, units_eq r, s.bond_units,
      List.take_replicate, List.drop_replicate, below]
    exact ⟨List.length_replicate, List.replicate_succ', List.replicate_succ⟩
  | foreign f => exact accords.known.elim

namespace ShapeTable
variable {ranks : IntMap Nat}

theorem units_eq_evaluate {tensor : TensorId} {rank : Nat} (known : ranks.get? tensor = some rank) :
    Shape.ofInts (units ranks tensor) = Shape.evaluate (fun _ => 1) (freshShape tensor rank) := by
  simp [units_eq known, Shape.ofInts, Shape.evaluate, freshShape, freshSymbol, Function.comp_def, List.map_const']

/-- Where ranks accord, shapes can be worked out from nothing, and have these ranks. -/
theorem run_from_nothing {ops : List Operation} (single : SingleAssignment ops)
    (accords : ∀ op ∈ ops, op.Accords ranks) :
    ∃ table, ops.foldlM step ⟨.empty⟩ = .ok table ∧
      ∀ tensor rank, tensor ∈ consumed ops ++ produced ops → ranks.get? tensor = some rank →
        ∃ shape, table.shapes.get? tensor = some shape ∧ shape.length = rank := by
  -- An instance that starts with ones for all tensors, to be followed by symbols.
  let start := (ShapeTable.mk .empty).realize (units ranks) ranks.keys
  have begun : ∀ tensor rank, ranks.get? tensor = some rank → start.Realizes (units ranks) tensor := by
    intro tensor rank known
    exact realizes_realize (.inl (IntMap.mem_keys.mpr (by simp [IntMap.contains, known])))
  have used : ∀ op ∈ ops, ∀ tensor ∈ op.inputs, ∃ rank, ranks.get? tensor = some rank := by
    intro op member tensor input
    rw [Operation.inputs_eq_uses (accords op member).known] at input
    obtain ⟨use, listed, rfl⟩ := List.mem_map.mp input
    exact ⟨use.2, (accords op member).uses use listed⟩
  have ready : ∀ before op after, ops = before ++ op :: after → ∀ tensor ∈ op.inputs,
      tensor ∈ produced before ∨ start.Realizes (units ranks) tensor := by
    intro before op after split tensor input
    obtain ⟨rank, known⟩ := used op (by simp [split]) tensor input
    exact .inr (begun tensor rank known)
  have run := run_of_wellShaped (fun op member => (accords op member).wellShaped) ready
  have unsettled : ∀ tensor ∈ consumed ops, tensor ∉ produced ops →
      Matches (fun _ => 1) ⟨.empty⟩ start tensor := by
    intro tensor consumed _
    obtain ⟨op, member, input⟩ := List.mem_flatMap.mp consumed
    obtain ⟨rank, known⟩ := used op member tensor input
    exact .inr ⟨rfl, rank, by rw [begun tensor rank known, units_eq_evaluate known]⟩
  obtain ⟨table, done, settled⟩ := run_follows single unsettled run
  refine ⟨table, done, fun tensor rank mentioned known => ?_⟩
  obtain ⟨shape, shown, -, instanced⟩ := settled tensor mentioned
  refine ⟨shape, shown, ?_⟩
  rw [realizes_realize (.inr (begun tensor rank known)), units_eq known] at instanced
  have same := congrArg List.length (Option.some.inj instanced)
  simpa [Shape.ofInts, Shape.evaluate] using same.symm

end ShapeTable
end TensorNetwork
