import TensorNetwork.Proofs.Shape.Valuation

/-! What operations demand of integer shapes, said without reference to how shapes
are worked out: all axes with one label have one extent, a transposition rearranges
its axes, and both factors of a split share a bond as large as the smaller side of
its matrix. A table that was worked out from integers meets all demands of its
program at once, since no tensor changes its shape any more. -/
namespace TensorNetwork

/-- The smaller side of the matrix that a split factors. -/
def Split.bond (s : Split) (extents : List Int) : Int :=
  min (extents.take s.left).prod (extents.drop s.left).prod

def Operation.WellShaped (shape : TensorId → List Int) : Operation → Prop
  | .contraction c =>
      ∃ extent : Label → Int, (∀ o ∈ c.operands, shape o.tensor = o.labels.map extent) ∧
        (∀ label ∈ c.kept, label ∈ c.labels) ∧ shape c.output = c.kept.map extent
  | .transposition t => (shape t.input).length = t.rank ∧ shape t.output = t.arrange (shape t.input)
  | .split s =>
      (shape s.input).length = s.rank ∧
        shape s.q = (shape s.input).take s.left ++ [s.bond (shape s.input)] ∧
        shape s.r = s.bond (shape s.input) :: (shape s.input).drop s.left
  | .foreign _ => False

/-- Only the tensors of an operation matter to it. -/
theorem Operation.WellShaped.congr {op : Operation} {shape other : TensorId → List Int}
    (shaped : op.WellShaped shape) (same : ∀ tensor ∈ op.inputs ++ op.outputs, other tensor = shape tensor) :
    op.WellShaped other := by
  cases op with
  | contraction c =>
    obtain ⟨extent, operands, bound, output⟩ := shaped
    refine ⟨extent, fun o member => ?_, bound, ?_⟩
    · rw [same _ (List.mem_append_left _ (List.mem_map_of_mem member)), operands o member]
    · rw [same c.output (by simp [outputs]), output]
  | transposition t =>
    have input : other t.input = shape t.input := same _ (by simp [inputs])
    have output : other t.output = shape t.output := same _ (by simp [outputs])
    rwa [WellShaped, input, output]
  | split s =>
    have input : other s.input = shape s.input := same _ (by simp [inputs])
    have q : other s.q = shape s.q := same _ (by simp [outputs])
    have r : other s.r = shape s.r := same _ (by simp [outputs])
    rwa [WellShaped, input, q, r]
  | foreign f => exact shaped

def Shape.ofInts (extents : List Int) : Shape Extent := extents.map .ofInt

namespace ShapeTable
variable {table : ShapeTable Extent} {tensor : TensorId}

/-- The integers of a shape; where there is none, no integers. -/
def integers (table : ShapeTable Extent) (tensor : TensorId) : List Int :=
  ((table.shapes.get? tensor).getD []).map Extent.coefficient

/-- The tensor is known, and all of its extents are integers. -/
def Integral (table : ShapeTable Extent) (tensor : TensorId) : Prop :=
  table.shapes.get? tensor = some (.ofInts (table.integers tensor))

theorem integers_eq {extents : List Int} (known : table.shapes.get? tensor = some (.ofInts extents)) :
    table.integers tensor = extents := by
  simp [integers, known, Shape.ofInts, Extent.ofInt, Function.comp_def]

theorem integral_of_known {extents : List Int} (known : table.shapes.get? tensor = some (.ofInts extents)) :
    table.Integral tensor := by
  rw [Integral, integers_eq known, known]

theorem integers_congr {next : ShapeTable Extent} (same : next.shapes.get? tensor = table.shapes.get? tensor) :
    next.integers tensor = table.integers tensor := by
  rw [integers, same, integers]

theorem Integral.congr {next : ShapeTable Extent} (known : table.Integral tensor)
    (same : next.shapes.get? tensor = table.shapes.get? tensor) : next.Integral tensor := by
  rwa [Integral, integers_congr same, same]

theorem integral_assign (table : ShapeTable Extent) (tensor : TensorId) (extents : List Int) :
    (table.assign tensor (.ofInts extents)).Integral tensor :=
  integral_of_known (by rw [get?_assign, if_pos rfl])

theorem integers_assign (table : ShapeTable Extent) (tensor other : TensorId) (extents : List Int) :
    (table.assign tensor (.ofInts extents)).integers other =
      if tensor = other then extents else table.integers other := by
  by_cases same : tensor = other
  · rw [if_pos same]
    exact integers_eq (by rw [get?_assign, if_pos same])
  · rw [if_neg same]
    exact integers_congr (by rw [get?_assign, if_neg same])

theorem Integral.assign {other : TensorId} (known : table.Integral other) (tensor : TensorId)
    (extents : List Int) : (table.assign tensor (.ofInts extents)).Integral other := by
  by_cases same : tensor = other
  · exact same ▸ integral_assign table tensor extents
  · exact known.congr (by rw [get?_assign, if_neg same])

theorem use_integral {rank : Nat} {shape : Shape Extent} {after : ShapeTable Extent} (known : table.Integral tensor)
    (used : table.use tensor rank = .ok (shape, after)) :
    after = table ∧ shape = .ofInts (table.integers tensor) ∧ (table.integers tensor).length = rank := by
  rw [use, known] at used
  dsimp only at used
  split at used
  · rename_i ranked
    cases used
    exact ⟨rfl, rfl, by simpa [Shape.ofInts] using ranked⟩
  · cases used

/-- Labels are bound to the extents of the axes that carry them, and nothing else
is bound. A label with two extents could not be bound to both. -/
def Binds (axes : List (Label × Int)) (bound : IntMap Extent) : Prop :=
  ∀ label a, bound.get? label = some a ↔ ∃ n, (label, n) ∈ axes ∧ a = .ofInt n

theorem Binds.bindAxis {axes : List (Label × Int)} {bound bound' : IntMap Extent} {label : Label} {n : Int}
    (binds : Binds axes bound) (stepped : ShapeTable.bindAxis tensor bound (label, .ofInt n) = .ok bound') :
    Binds (axes ++ [(label, n)]) bound' := by
  intro other a
  unfold ShapeTable.bindAxis at stepped
  split at stepped
  · rename_i free
    cases stepped
    rw [IntMap.get?_insert]
    by_cases same : label = other
    · subst same
      have unlabelled : ∀ m, (label, m) ∉ axes := fun m member => by
        have := (binds label (.ofInt m)).mpr ⟨m, member, rfl⟩
        simp [free] at this
      simp [unlabelled, eq_comm]
    · simp [same, Ne.symm same, binds other a]
  · rename_i expected held
    obtain ⟨m, member, rfl⟩ := (binds label expected).mp held
    simp only [Extent.algebra_disagrees, disagrees_ofInt] at stepped
    split at stepped
    · cases stepped
    · rename_i agree
      cases stepped
      have same : m = n := by simpa using agree
      subst same
      rw [binds other a]
      constructor
      · rintro ⟨k, earlier, rfl⟩
        exact ⟨k, List.mem_append_left _ earlier, rfl⟩
      · rintro ⟨k, listed, rfl⟩
        rcases List.mem_append.mp listed with earlier | last
        · exact ⟨k, earlier, rfl⟩
        · cases List.mem_singleton.mp last
          exact ⟨_, member, rfl⟩

theorem Binds.bindAxes {axes more : List (Label × Int)} {bound bound' : IntMap Extent}
    (binds : Binds axes bound)
    (run : (more.map fun axis => (axis.1, Extent.ofInt axis.2)).foldlM (ShapeTable.bindAxis tensor) bound =
      .ok bound') : Binds (axes ++ more) bound' := by
  induction more generalizing axes bound with
  | nil =>
    cases run
    rwa [List.append_nil]
  | cons axis rest ih =>
    rw [List.map_cons, List.foldlM_cons, Outcome.bind_eq_ok] at run
    obtain ⟨middle, first, others⟩ := run
    have whole := ih (binds.bindAxis first) others
    rwa [List.append_assoc] at whole

/-- The axes of operands with their labels. -/
def labelledAxes (table : ShapeTable Extent) (operands : List Operand) : List (Label × Int) :=
  operands.flatMap fun o => o.labels.zip (table.integers o.tensor)

theorem bindOperands_binds {operands : List Operand} {axes : List (Label × Int)} {bound bound' : IntMap Extent}
    {after : ShapeTable Extent} (known : ∀ o ∈ operands, table.Integral o.tensor) (binds : Binds axes bound)
    (run : operands.foldlM bindOperand (table, bound) = .ok (after, bound')) :
    after = table ∧ (∀ o ∈ operands, (table.integers o.tensor).length = o.labels.length) ∧
      Binds (axes ++ table.labelledAxes operands) bound' := by
  induction operands generalizing axes bound with
  | nil =>
    cases run
    exact ⟨rfl, by simp, by simpa [labelledAxes] using binds⟩
  | cons o rest ih =>
    rw [List.foldlM_cons, Outcome.bind_eq_ok] at run
    obtain ⟨⟨middle, bound₁⟩, first, others⟩ := run
    obtain ⟨⟨shape, used⟩, use, first⟩ := Outcome.bind_eq_ok.mp first
    obtain ⟨bound₂, axesBound, done⟩ := Outcome.bind_eq_ok.mp first
    cases done
    obtain ⟨rfl, rfl, ranked⟩ := use_integral (known o List.mem_cons_self) use
    rw [Shape.ofInts, List.zip_map_right] at axesBound
    obtain ⟨rfl, lengths, bindsAll⟩ :=
      ih (fun p member => known p (List.mem_cons_of_mem _ member)) (binds.bindAxes axesBound) others
    refine ⟨rfl, List.forall_mem_cons.mpr ⟨ranked, lengths⟩, ?_⟩
    rwa [List.append_assoc] at bindsAll

theorem eq_map_of_zip {α β : Type} {f : α → β} {xs : List α} {ys : List β} (lengths : ys.length = xs.length)
    (each : ∀ pair ∈ xs.zip ys, f pair.1 = pair.2) : ys = xs.map f := by
  rw [← List.map_snd_zip lengths.le, ← List.map_congr_left each]
  conv_rhs => rw [← List.map_fst_zip lengths.ge, List.map_map]
  rfl

/-- A contraction that could be carried out gives every label one extent. -/
theorem contract_integral {c : Contraction} {next : ShapeTable Extent}
    (known : ∀ tensor ∈ c.inputs, table.Integral tensor) (stepped : table.contract c = .ok next) :
    ∃ extent : Label → Int, (∀ o ∈ c.operands, table.integers o.tensor = o.labels.map extent) ∧
      (∀ label ∈ c.kept, label ∈ c.labels) ∧ next = table.assign c.output (.ofInts (c.kept.map extent)) := by
  rw [contract, Outcome.bind_eq_ok] at stepped
  obtain ⟨⟨used, bound⟩, operands, stepped⟩ := stepped
  obtain ⟨shape, kept, done⟩ := Outcome.bind_eq_ok.mp stepped
  cases done
  have nothing : Binds [] .empty := fun label a => by simp
  obtain ⟨rfl, lengths, binds⟩ :=
    bindOperands_binds (fun o member => known _ (List.mem_map_of_mem member)) nothing operands
  rw [List.nil_append] at binds
  refine ⟨fun label => ((bound.get? label).map Extent.coefficient).getD 0, ?_, ?_, ?_⟩
  · intro o member
    refine eq_map_of_zip (lengths o member) fun axis listed => ?_
    have held := (binds axis.1 (.ofInt axis.2)).mpr ⟨axis.2, List.mem_flatMap.mpr ⟨o, member, listed⟩, rfl⟩
    simp [held, Extent.ofInt]
  · intro label member
    obtain ⟨a, found⟩ := Outcome.ok_of_mapM kept member
    obtain ⟨n, listed, -⟩ := (binds label a).mp (keptExtent_eq_ok found)
    obtain ⟨o, held, axis⟩ := List.mem_flatMap.mp listed
    exact List.mem_flatMap.mpr ⟨o, held, (List.of_mem_zip axis).1⟩
  · obtain ⟨count, found⟩ := List.forall₂_iff_zip.mp (Outcome.mapM_eq_ok.mp kept)
    rw [Shape.ofInts, List.map_map]
    refine congrArg _ (eq_map_of_zip count.symm fun pair listed => ?_)
    have held := keptExtent_eq_ok (found listed)
    obtain ⟨n, -, extent⟩ := (binds pair.1 pair.2).mp held
    simp [held, extent, Extent.ofInt]

theorem sides_ofInts (left : Nat) (extents : List Int) :
    sides left (.ofInts extents) = (.ofInt (extents.take left).prod, .ofInt (extents.drop left).prod) := by
  simp only [sides, Extent.algebra_product]
  rw [Shape.ofInts, ← List.map_take, ← List.map_drop, product_ofInts, product_ofInts]

theorem bond_ofInts (s : Split) (extents : List Int) :
    bond s.left (.ofInts extents) = .ofInt (s.bond extents) := by
  rw [bond, sides_ofInts]
  exact least_ofInts _ _

theorem transpose_integral {t : Transposition} {next : ShapeTable Extent} (known : table.Integral t.input)
    (stepped : table.transpose t = .ok next) :
    (table.integers t.input).length = t.rank ∧
      next = table.assign t.output (.ofInts (t.arrange (table.integers t.input))) := by
  obtain ⟨⟨shape, used⟩, use, done⟩ := Outcome.bind_eq_ok.mp stepped
  cases done
  obtain ⟨rfl, rfl, ranked⟩ := use_integral known use
  exact ⟨ranked, congrArg _ (t.arrange_map _ _)⟩

theorem split_integral {s : Split} {next : ShapeTable Extent} (known : table.Integral s.input)
    (stepped : table.split s = .ok next) :
    (table.integers s.input).length = s.rank ∧
      next = (table.assign s.q (.ofInts ((table.integers s.input).take s.left ++
        [s.bond (table.integers s.input)]))).assign s.r
          (.ofInts (s.bond (table.integers s.input) :: (table.integers s.input).drop s.left)) := by
  obtain ⟨⟨shape, used⟩, use, done⟩ := Outcome.bind_eq_ok.mp stepped
  cases done
  obtain ⟨rfl, rfl, ranked⟩ := use_integral known use
  refine ⟨ranked, ?_⟩
  rw [bond_ofInts]
  simp [Shape.ofInts]

/-- One step meets the demands of its operation and leaves all other tensors alone. -/
theorem step_wellShaped {op : Operation} {next : ShapeTable Extent} (nodup : op.outputs.Nodup)
    (unused : ∀ tensor ∈ op.outputs, tensor ∉ op.inputs)
    (known : ∀ tensor ∈ op.inputs, table.Integral tensor) (stepped : table.step op = .ok next) :
    (∀ tensor, tensor ∉ op.outputs → next.shapes.get? tensor = table.shapes.get? tensor) ∧
      (∀ tensor ∈ op.outputs, next.Integral tensor) ∧ op.WellShaped next.integers := by
  have apart : ∀ output ∈ op.outputs, ∀ input ∈ op.inputs, output ≠ input := by
    rintro output made input used rfl
    exact unused output made used
  cases op with
  | contraction c =>
    obtain ⟨extent, operands, bound, rfl⟩ := contract_integral known stepped
    simp only [Operation.outputs, List.mem_singleton, forall_eq] at apart ⊢
    refine ⟨fun tensor other => ?_, integral_assign .., extent, fun o member => ?_, bound, ?_⟩
    · rw [get?_assign, if_neg (Ne.symm other)]
    · rw [integers_assign, if_neg (apart o.tensor (List.mem_map_of_mem member)), operands o member]
    · rw [integers_assign, if_pos rfl]
  | transposition t =>
    simp only [Operation.inputs, Operation.outputs, List.mem_singleton, forall_eq] at known apart ⊢
    obtain ⟨ranked, rfl⟩ := transpose_integral known stepped
    refine ⟨fun tensor other => ?_, integral_assign .., ?_⟩
    · rw [get?_assign, if_neg (Ne.symm other)]
    · rw [Operation.WellShaped, integers_assign, if_neg apart, integers_assign, if_pos rfl]
      exact ⟨ranked, rfl⟩
  | split s =>
    simp only [Operation.inputs, Operation.outputs, List.mem_cons, List.not_mem_nil, or_false, forall_eq_or_imp,
      forall_eq, List.nodup_cons, not_or] at known apart nodup ⊢
    obtain ⟨ranked, rfl⟩ := split_integral known stepped
    refine ⟨fun tensor other => ?_, ⟨(integral_assign ..).assign .., integral_assign ..⟩, ?_⟩
    · rw [get?_assign, if_neg (Ne.symm other.2), get?_assign, if_neg (Ne.symm other.1)]
    · simpa only [Operation.WellShaped, integers_assign, if_neg apart.1, if_neg apart.2,
        if_neg (Ne.symm nodup.1), if_true, and_true] using ranked
  | foreign f => cases stepped

/-- A table that was worked out meets the demands of all operations, and what
nothing produces has the shape that it started with. -/
theorem run_wellShaped {ops : List Operation} {start final : ShapeTable Extent} (single : SingleAssignment ops)
    (known : ∀ tensor ∈ consumed ops, tensor ∉ produced ops → start.Integral tensor)
    (run : ops.foldlM step start = .ok final) :
    (∀ tensor ∈ consumed ops ++ produced ops, final.Integral tensor) ∧
      (∀ tensor, tensor ∉ produced ops → final.shapes.get? tensor = start.shapes.get? tensor) ∧
      ∀ op ∈ ops, op.WellShaped final.integers := by
  refine Outcome.foldlM_induction (P := fun before table =>
    (∀ tensor ∈ consumed before ++ produced before, table.Integral tensor) ∧
      (∀ tensor, tensor ∉ produced before → table.shapes.get? tensor = start.shapes.get? tensor) ∧
      ∀ op ∈ before, op.WellShaped table.integers) ⟨by simp [consumed, produced], fun _ _ => rfl, by simp⟩ ?_ run
  rintro before op after table next split ⟨integral, unchanged, met⟩ stepped
  have admits := single before op after split
  have ready : ∀ tensor ∈ op.inputs, table.Integral tensor := by
    intro tensor used
    by_cases made : tensor ∈ produced ops
    · rw [split] at single made
      exact integral tensor (List.mem_append_right _ (single.produced_before used made))
    · have here : tensor ∈ consumed ops := by simp [split, consumed, used]
      have unmade : tensor ∉ produced before := fun early => made (by
        rw [split, produced, List.flatMap_append]
        exact List.mem_append_left _ early)
      exact (known tensor here made).congr (unchanged tensor unmade)
  obtain ⟨others, outputs, shaped⟩ := step_wellShaped admits.nodup admits.unused ready stepped
  -- What was mentioned before keeps its shape.
  have kept : ∀ tensor ∈ consumed before ++ produced before, tensor ∉ op.outputs := by
    intro tensor mentioned output
    rcases List.mem_append.mp mentioned with used | made
    · exact admits.unconsumed tensor output used
    · exact admits.unproduced tensor output made
  refine ⟨fun tensor member => ?_, fun tensor unmade => ?_, fun o member => ?_⟩
  · by_cases output : tensor ∈ op.outputs
    · exact outputs tensor output
    · refine Integral.congr ?_ (others tensor output)
      simp only [consumed_snoc, produced_snoc, List.mem_append] at member
      rcases member with (old | new) | old | new
      · exact integral tensor (List.mem_append_left _ old)
      · exact ready tensor new
      · exact integral tensor (List.mem_append_right _ old)
      · exact absurd new output
  · simp only [produced_snoc, List.mem_append, not_or] at unmade
    rw [others tensor unmade.2, unchanged tensor unmade.1]
  · rcases List.mem_append.mp member with old | new
    · refine (met o old).congr fun tensor occurs => ?_
      exact integers_congr (others tensor (kept tensor (mentioned_of_mem old occurs)))
    · rw [List.mem_singleton.mp new]
      exact shaped

theorem get?_integral {shapes : List (TensorId × List Int)} (given : ofGiven (handedOver (integral shapes)) = .ok table)
    (tensor : TensorId) : table.shapes.get? tensor = (lastEntry shapes tensor).map Shape.ofInts := by
  rw [get?_handedOver given, ShapeTable.integral, lastEntry_map, Option.map_map]
  refine congrArg (fun f => (lastEntry shapes tensor).map f) (funext fun extents => ?_)
  simp [Shape.ofInts, Function.comp_def, Dimension.extent]

/-- Shapes worked out from integers for all inputs are integers, agree with what
was given and meet all demands. -/
theorem infer_wellShaped {p : Program} {roles : SymbolTable} (accepted : SymbolTable.ofProgram p = .ok roles)
    {shapes : List (TensorId × List Int)}
    (covered : ∀ tensor ∈ roles.inputs, ∃ extents, lastEntry shapes tensor = some extents)
    (worked : infer p (handedOver (integral shapes)) = .ok table) :
    (∀ tensor ∈ consumed p.operations ++ produced p.operations, table.Integral tensor) ∧
      (∀ tensor ∈ roles.inputs, lastEntry shapes tensor = some (table.integers tensor)) ∧
      ∀ op ∈ p.operations, op.WellShaped table.integers := by
  obtain ⟨-, single, described⟩ := SymbolTable.ofProgram_eq_ok.mp accepted
  obtain ⟨start, given, run⟩ := Outcome.bind_eq_ok.mp worked
  have begun : ∀ tensor ∈ roles.inputs, ∃ extents, lastEntry shapes tensor = some extents ∧
      start.shapes.get? tensor = some (.ofInts extents) := by
    intro tensor input
    obtain ⟨extents, entry⟩ := covered tensor input
    exact ⟨extents, entry, by rw [get?_integral given, entry, Option.map_some]⟩
  obtain ⟨integral, unchanged, met⟩ := run_wellShaped single (fun tensor used unmade => by
    obtain ⟨extents, -, known⟩ := begun tensor ((SymbolTable.mem_inputs described).mpr ⟨used, unmade⟩)
    exact integral_of_known known) run
  refine ⟨integral, fun tensor input => ?_, met⟩
  obtain ⟨extents, entry, known⟩ := begun tensor input
  rw [← unchanged tensor ((SymbolTable.mem_inputs described).mp input).2] at known
  rw [entry, integers_eq known]

end ShapeTable
end TensorNetwork
