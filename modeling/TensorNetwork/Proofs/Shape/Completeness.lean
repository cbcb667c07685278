import TensorNetwork.Proofs.Shape.Constraints

/-! Shapes are worked out wherever there are any. The demands of operations are said
here axis by axis. If some integer shapes meet them, a table that knows the inputs
runs through, and what it ends with are these shapes; so there are no others. -/
namespace TensorNetwork

/-- Some axis of an operand has a label and an extent. -/
def Operand.HasExtent (shape : TensorId → List Int) (o : Operand) (label : Label) (n : Int) : Prop :=
  ∃ axis : Nat, o.labels[axis]? = some label ∧ (shape o.tensor)[axis]? = some n

/-- What an operation demands of the shapes of its tensors, axis by axis. -/
def Operation.Consistent (shape : TensorId → List Int) : Operation → Prop
  | .contraction c =>
      (∀ o ∈ c.operands, (shape o.tensor).length = o.labels.length) ∧
        (∀ o ∈ c.operands, ∀ o' ∈ c.operands, ∀ label m n,
          o.HasExtent shape label m → o'.HasExtent shape label n → m = n) ∧
        (∀ label ∈ c.kept, ∃ o ∈ c.operands, label ∈ o.labels) ∧
        List.Forall₂ (fun label n => ∃ o ∈ c.operands, o.HasExtent shape label n) c.kept (shape c.output)
  | .transposition t =>
      (shape t.input).length = t.permutation.length ∧
        List.Forall₂ (fun (entry : Int) n => ∃ axis : Nat, entry = axis ∧ (shape t.input)[axis]? = some n)
          t.permutation (shape t.output)
  | .split s =>
      (shape s.input).length = s.rank ∧ ∃ k,
        k = min ((shape s.input).take s.left).prod ((shape s.input).drop s.left).prod ∧
        shape s.q = (shape s.input).take s.left ++ [k] ∧ shape s.r = k :: (shape s.input).drop s.left
  | .foreign _ => False

variable {shape : TensorId → List Int}

/-- Labels that are bound once give every label of the operands one extent. -/
theorem Contraction.exists_extent {c : Contraction}
    (lengths : ∀ o ∈ c.operands, (shape o.tensor).length = o.labels.length)
    (single : ∀ o ∈ c.operands, ∀ o' ∈ c.operands, ∀ label m n,
      o.HasExtent shape label m → o'.HasExtent shape label n → m = n) :
    ∃ extent : Label → Int, (∀ o ∈ c.operands, shape o.tensor = o.labels.map extent) ∧
      ∀ o ∈ c.operands, ∀ label n, o.HasExtent shape label n → extent label = n := by
  classical
  have chosen : ∀ label, ∃ m, ∀ o ∈ c.operands, ∀ n, o.HasExtent shape label n → m = n := by
    intro label
    by_cases carried : ∃ o ∈ c.operands, ∃ m, o.HasExtent shape label m
    · obtain ⟨o, member, m, here⟩ := carried
      exact ⟨m, fun o' member' n there => single o member o' member' label m n here there⟩
    · exact ⟨0, fun o member n here => absurd ⟨o, member, n, here⟩ carried⟩
  choose extent unique using chosen
  refine ⟨extent, fun o member => ?_, fun o member label n here => unique label o member n here⟩
  apply List.ext_getElem?
  intro axis
  rw [List.getElem?_map]
  cases labelled : o.labels[axis]? with
  | none =>
    have outside := List.getElem?_eq_none_iff.mp labelled
    rw [Option.map_none, List.getElem?_eq_none_iff, lengths o member]
    exact outside
  | some label =>
    obtain ⟨inside, -⟩ := List.getElem?_eq_some_iff.mp labelled
    have held := List.getElem?_eq_getElem ((lengths o member).symm ▸ inside)
    rw [held, Option.map_some, unique label o member _ ⟨axis, labelled, held⟩]

theorem Operand.hasExtent_map {o : Operand} {extent : Label → Int} (shaped : shape o.tensor = o.labels.map extent)
    {label : Label} {n : Int} : o.HasExtent shape label n ↔ label ∈ o.labels ∧ extent label = n := by
  constructor
  · rintro ⟨axis, labelled, held⟩
    rw [shaped, List.getElem?_map, labelled] at held
    exact ⟨List.mem_of_getElem? labelled, Option.some.inj held⟩
  · rintro ⟨member, rfl⟩
    obtain ⟨axis, labelled⟩ := List.mem_iff_getElem?.mp member
    exact ⟨axis, labelled, by rw [shaped, List.getElem?_map, labelled, Option.map_some]⟩

theorem Contraction.consistent_iff {c : Contraction} :
    (Operation.contraction c).Consistent shape ↔ (Operation.contraction c).WellShaped shape := by
  constructor
  · rintro ⟨lengths, single, carried, output⟩
    obtain ⟨extent, operands, unique⟩ := exists_extent lengths single
    refine ⟨extent, operands, fun label member => List.mem_flatMap.mpr (carried label member), ?_⟩
    apply Outcome.eq_map_of_forall₂
    refine output.imp fun label n held => ?_
    obtain ⟨o, member, here⟩ := held
    exact unique o member label n here
  · rintro ⟨extent, operands, carried, output⟩
    refine ⟨fun o member => ?_, fun o member o' member' label m n here there => ?_, fun label member => ?_, ?_⟩
    · rw [operands o member, List.length_map]
    · have left := ((Operand.hasExtent_map (operands o member)).mp here).2
      have right := ((Operand.hasExtent_map (operands o' member')).mp there).2
      exact left.symm.trans right
    · exact List.mem_flatMap.mp (carried label member)
    · rw [output, List.forall₂_map_right_iff, List.forall₂_same]
      intro label member
      obtain ⟨o, held, listed⟩ := List.mem_flatMap.mp (carried label member)
      exact ⟨o, held, (Operand.hasExtent_map (operands o held)).mpr ⟨listed, rfl⟩⟩

/-- Arranging is what the axes of the output say. -/
theorem Transposition.arrange_iff {t : Transposition} {items result : List Int} (sized : items.length = t.rank) :
    result = t.arrange items ↔
      List.Forall₂ (fun (entry : Int) n => ∃ axis : Nat, entry = axis ∧ items[axis]? = some n) t.permutation result := by
  rw [t.arrange_eq_map sized 0]
  have held : ∀ entry ∈ t.permutation, ∃ axis : Nat, entry = axis ∧ axis < items.length := by
    intro entry member
    obtain ⟨low, high⟩ := t.bounded member
    exact ⟨entry.toNat, by omega, by omega⟩
  constructor
  · rintro rfl
    rw [List.forall₂_map_right_iff, List.forall₂_same]
    intro entry member
    obtain ⟨axis, rfl, inside⟩ := held entry member
    exact ⟨axis, rfl, by simp [inside]⟩
  · intro each
    apply Outcome.eq_map_of_forall₂
    refine each.imp fun entry n found => ?_
    obtain ⟨axis, rfl, item⟩ := found
    simp [item]

/-- Both ways to say what an operation demands agree. -/
theorem Operation.consistent_iff_wellShaped {op : Operation} : op.Consistent shape ↔ op.WellShaped shape := by
  cases op with
  | contraction c => exact Contraction.consistent_iff
  | transposition t =>
    constructor
    · rintro ⟨sized, axes⟩
      exact ⟨sized, (Transposition.arrange_iff sized).mpr axes⟩
    · rintro ⟨sized, arranged⟩
      exact ⟨sized, (Transposition.arrange_iff sized).mp arranged⟩
  | split s =>
    constructor
    · rintro ⟨sized, k, rfl, q, r⟩
      exact ⟨sized, q, r⟩
    · rintro ⟨sized, q, r⟩
      exact ⟨sized, _, rfl, q, r⟩
  | foreign f => exact Iff.rfl

namespace ShapeTable
variable {table : ShapeTable Extent}

/-- The table knows a tensor with the shape that it should have. -/
def Realizes (table : ShapeTable Extent) (shape : TensorId → List Int) (tensor : TensorId) : Prop :=
  table.shapes.get? tensor = some (.ofInts (shape tensor))

/-- Assigns to tensors the shapes that they should have. -/
def realize (table : ShapeTable Extent) (shape : TensorId → List Int) (tensors : List TensorId) : ShapeTable Extent :=
  tensors.foldl (fun table tensor => table.assign tensor (.ofInts (shape tensor))) table

theorem get?_realize (table : ShapeTable Extent) (shape : TensorId → List Int) (tensors : List TensorId)
    (other : TensorId) :
    (table.realize shape tensors).shapes.get? other =
      if other ∈ tensors then some (.ofInts (shape other)) else table.shapes.get? other := by
  induction tensors generalizing table with
  | nil => simp [realize]
  | cons tensor rest ih =>
    rw [realize, List.foldl_cons, ← realize, ih, get?_assign]
    by_cases same : tensor = other
    · simp [same]
    · simp [same, Ne.symm same]

theorem realizes_realize {tensors : List TensorId} {tensor : TensorId}
    (known : tensor ∈ tensors ∨ table.Realizes shape tensor) : (table.realize shape tensors).Realizes shape tensor := by
  rw [Realizes, get?_realize]
  split
  · rfl
  · rename_i missing
    exact known.resolve_left missing

theorem Realizes.use {tensor : TensorId} (known : table.Realizes shape tensor) {rank : Nat}
    (ranked : (shape tensor).length = rank) : table.use tensor rank = .ok (.ofInts (shape tensor), table) := by
  rw [Realizes] at known
  simp [ShapeTable.use, known, Shape.ofInts, ranked]

/-- Labels are bound to the extents that they should have, if at all. -/
def BoundTo (extent : Label → Int) (bound : IntMap Extent) : Prop :=
  ∀ label a, bound.get? label = some a → a = .ofInt (extent label)

/-- Axes that carry their extents can be bound, and their labels are bound then. -/
theorem BoundTo.bindAxes {extent : Label → Int} {bound : IntMap Extent} (right : BoundTo extent bound)
    (tensor : TensorId) (labels : List Label) :
    ∃ bound', (labels.map fun label => (label, Extent.ofInt (extent label))).foldlM (bindAxis tensor) bound =
        .ok bound' ∧ BoundTo extent bound' ∧ (∀ label ∈ labels, bound'.contains label = true) ∧
      ∀ label, bound.contains label = true → bound'.contains label = true := by
  induction labels generalizing bound with
  | nil => exact ⟨bound, rfl, right, by simp, fun _ held => held⟩
  | cons label rest ih =>
    obtain ⟨middle, first, right, here, keeps⟩ : ∃ middle,
        bindAxis tensor bound (label, .ofInt (extent label)) = .ok middle ∧ BoundTo extent middle ∧
          middle.contains label = true ∧ ∀ other, bound.contains other = true → middle.contains other = true := by
      cases known : bound.get? label with
      | none =>
        refine ⟨bound.insert label (.ofInt (extent label)), by simp [bindAxis, known], fun other a => ?_,
          by simp [IntMap.contains, IntMap.get?_insert], fun other held => ?_⟩
        · rw [IntMap.get?_insert]
          split
          · rintro ⟨⟩
            rename_i same
            rw [same]
          · exact right other a
        · rw [IntMap.contains, IntMap.get?_insert]
          split
          · rfl
          · exact held
      | some a =>
        have same := right label a known
        subst same
        exact ⟨bound, by simp [bindAxis, known, disagrees_ofInt], right, by simp [IntMap.contains, known],
          fun _ held => held⟩
    obtain ⟨final, others, right, there, keeps'⟩ := ih right
    refine ⟨final, ?_, right, ?_, fun other held => keeps' other (keeps other held)⟩
    · rw [List.map_cons, List.foldlM_cons, Outcome.bind_eq_ok]
      exact ⟨middle, first, others⟩
    · exact List.forall_mem_cons.mpr ⟨keeps' label here, there⟩

theorem BoundTo.bindOperands {extent : Label → Int} {bound : IntMap Extent} (right : BoundTo extent bound)
    {operands : List Operand} (shaped : ∀ o ∈ operands, shape o.tensor = o.labels.map extent)
    (known : ∀ o ∈ operands, table.Realizes shape o.tensor) :
    ∃ bound', operands.foldlM bindOperand (table, bound) = .ok (table, bound') ∧ BoundTo extent bound' ∧
      (∀ label ∈ operands.flatMap Operand.labels, bound'.contains label = true) ∧
      ∀ label, bound.contains label = true → bound'.contains label = true := by
  induction operands generalizing bound with
  | nil => exact ⟨bound, rfl, right, by simp, fun _ held => held⟩
  | cons o rest ih =>
    obtain ⟨ofHead, ofRest⟩ := List.forall_mem_cons.mp shaped
    obtain ⟨middle, axes, right, here, keeps⟩ := right.bindAxes o.tensor o.labels
    obtain ⟨final, others, right, there, keeps'⟩ := ih right ofRest fun p member => known p (List.mem_cons_of_mem _ member)
    have ranked : (shape o.tensor).length = o.labels.length := by rw [ofHead, List.length_map]
    have used := (known o List.mem_cons_self).use ranked
    have zipped : o.labels.zip (Shape.ofInts (shape o.tensor)) =
        o.labels.map fun label => (label, Extent.ofInt (extent label)) := by
      rw [ofHead, Shape.ofInts, List.map_map]
      simpa using List.zip_map' (f := id) (g := Extent.ofInt ∘ extent) (l := o.labels)
    refine ⟨final, ?_, right, ?_, fun other held => keeps' other (keeps other held)⟩
    · rw [List.foldlM_cons, Outcome.bind_eq_ok]
      refine ⟨(table, middle), ?_, others⟩
      rw [bindOperand, Outcome.bind_eq_ok]
      exact ⟨_, used, Outcome.bind_eq_ok.mpr ⟨middle, zipped ▸ axes, rfl⟩⟩
    · intro label member
      rcases List.mem_append.mp (List.flatMap_cons ▸ member) with own | later
      · exact keeps' label (here label own)
      · exact there label later

theorem BoundTo.keptExtents {extent : Label → Int} {bound : IntMap Extent} (right : BoundTo extent bound)
    {kept : List Label} (held : ∀ label ∈ kept, bound.contains label = true) :
    kept.mapM (keptExtent bound) = .ok (Shape.ofInts (kept.map extent)) := by
  rw [Outcome.mapM_eq_ok, Shape.ofInts, List.map_map, List.forall₂_map_right_iff, List.forall₂_same]
  intro label member
  obtain ⟨a, found⟩ := Option.isSome_iff_exists.mp (held label member)
  simp [keptExtent, found, right label a found]

theorem contract_of_wellShaped {c : Contraction} (demands : (Operation.contraction c).WellShaped shape)
    (known : ∀ tensor ∈ c.inputs, table.Realizes shape tensor) :
    table.contract c = .ok (table.realize shape [c.output]) := by
  obtain ⟨extent, operands, carried, output⟩ := demands
  have nothing : BoundTo extent .empty := fun label a held => by cases held
  obtain ⟨bound, run, right, labelled, -⟩ :=
    nothing.bindOperands operands fun o member => known _ (List.mem_map_of_mem member)
  have kept := right.keptExtents fun label member => labelled label (carried label member)
  rw [contract, Outcome.bind_eq_ok]
  refine ⟨_, run, Outcome.bind_eq_ok.mpr ⟨_, kept, ?_⟩⟩
  rw [← output]
  rfl

/-- A table that knows what an operation uses can take its step. -/
theorem step_of_wellShaped {op : Operation} (demands : op.WellShaped shape)
    (known : ∀ tensor ∈ op.inputs, table.Realizes shape tensor) :
    table.step op = .ok (table.realize shape op.outputs) := by
  cases op with
  | contraction c => exact contract_of_wellShaped demands known
  | transposition t =>
    obtain ⟨sized, output⟩ := demands
    rw [step, transpose, Outcome.bind_eq_ok]
    refine ⟨_, (known t.input List.mem_cons_self).use sized, ?_⟩
    have arranged : t.arrange (Shape.ofInts (shape t.input)) = Shape.ofInts (shape t.output) := by
      rw [output]
      exact t.arrange_map _ _
    simp only [arranged]
    rfl
  | split s =>
    obtain ⟨sized, q, r⟩ := demands
    rw [step, split, Outcome.bind_eq_ok]
    refine ⟨_, (known s.input List.mem_cons_self).use sized, ?_⟩
    have left : (Shape.ofInts (shape s.input)).take s.left ++ [bond s.left (.ofInts (shape s.input))] =
        Shape.ofInts (shape s.q) := by
      rw [bond_ofInts, q]
      simp [Shape.ofInts]
    have right : bond s.left (.ofInts (shape s.input)) :: (Shape.ofInts (shape s.input)).drop s.left =
        Shape.ofInts (shape s.r) := by
      rw [bond_ofInts, r]
      simp [Shape.ofInts]
    simp only [left, right]
    rfl
  | foreign f => exact demands.elim

/-- Operations that use what is known or was produced before run through. -/
theorem run_of_wellShaped {ops : List Operation} (demands : ∀ op ∈ ops, op.WellShaped shape)
    (ready : ∀ before op after, ops = before ++ op :: after → ∀ tensor ∈ op.inputs,
      tensor ∈ produced before ∨ table.Realizes shape tensor) :
    ops.foldlM step table = .ok (table.realize shape (produced ops)) := by
  induction ops using List.reverseRecOn with
  | nil => rfl
  | append_singleton before op ih =>
    have earlier := ih (fun o member => demands o (List.mem_append_left _ member))
      fun front o back split => ready front o (back ++ [op]) (by simp [split])
    have known : ∀ tensor ∈ op.inputs, (table.realize shape (produced before)).Realizes shape tensor :=
      fun tensor used => realizes_realize (ready before op [] rfl tensor used)
    have stepped := step_of_wellShaped (demands op (by simp)) known
    rw [List.foldlM_append, Outcome.bind_eq_ok]
    refine ⟨_, earlier, ?_⟩
    rw [List.foldlM_cons, Outcome.bind_eq_ok]
    refine ⟨_, stepped, ?_⟩
    rw [produced_snoc, realize, realize, ← List.foldl_append]
    rfl

/-- Integer shapes for the tensors of a program that agree with those given for its
inputs and meet the demands of all operations. -/
structure Explains (p : Program) (roles : SymbolTable) (given : List (TensorId × List Int))
    (shape : TensorId → List Int) : Prop where
  inputs : ∀ tensor ∈ roles.inputs, lastEntry given tensor = some (shape tensor)
  consistent : ∀ op ∈ p.operations, op.Consistent shape

/-- Shapes that explain a program are found. -/
theorem Explains.inferred {p : Program} {roles : SymbolTable} {given : List (TensorId × List Int)}
    (explains : Explains p roles given shape) (accepted : SymbolTable.ofProgram p = .ok roles) :
    ∃ table, infer p (handedOver (integral given)) = .ok table ∧
      ∀ tensor, roles.contains tensor = true → table.shape tensor = .ok (.ofInts (shape tensor)) := by
  obtain ⟨-, -, described⟩ := SymbolTable.ofProgram_eq_ok.mp accepted
  have start := ofGiven_handedOver (integral given)
  generalize ShapeTable.mk _ = begun at start
  have known : ∀ tensor ∈ roles.inputs, begun.Realizes shape tensor := by
    intro tensor input
    rw [Realizes, get?_integral start, explains.inputs tensor input, Option.map_some]
  have ready : ∀ before op after, p.operations = before ++ op :: after → ∀ tensor ∈ op.inputs,
      tensor ∈ produced before ∨ begun.Realizes shape tensor := fun before op after split tensor used =>
    (input_or_produced accepted split used).symm.imp_right (known tensor)
  have run := run_of_wellShaped
    (fun op member => Operation.consistent_iff_wellShaped.mp (explains.consistent op member)) ready
  refine ⟨_, Outcome.bind_eq_ok.mpr ⟨begun, start, run⟩, fun tensor held => ?_⟩
  have settled : (begun.realize shape (produced p.operations)).Realizes shape tensor := by
    apply realizes_realize
    by_cases made : tensor ∈ produced p.operations
    · exact .inl made
    · have used := (List.mem_append.mp (SymbolTable.mentioned_of_contains described held)).resolve_right made
      exact .inr (known tensor ((SymbolTable.mem_inputs described).mpr ⟨used, made⟩))
  rw [ShapeTable.shape, settled]

theorem Explains.unique {p : Program} {roles : SymbolTable} {given : List (TensorId × List Int)}
    {other : TensorId → List Int} (explains : Explains p roles given shape) (also : Explains p roles given other)
    (accepted : SymbolTable.ofProgram p = .ok roles) {tensor : TensorId} (held : roles.contains tensor = true) :
    shape tensor = other tensor := by
  obtain ⟨table, worked, known⟩ := explains.inferred accepted
  obtain ⟨table', worked', known'⟩ := also.inferred accepted
  have same : table = table' := Except.ok.inj (worked.symm.trans worked')
  have shown := (known tensor held).symm.trans (same ▸ known' tensor held)
  have injective : Function.Injective Extent.ofInt := fun m n equal => congrArg Extent.coefficient equal
  exact injective.list_map (Except.ok.inj shown)

/-- Shapes can be worked out from integers for all inputs exactly if some integer
shapes meet the demands of all operations. There is then one such shape for each
tensor, and it is the one worked out. -/
theorem infer_decides_consistency {p : Program} {roles : SymbolTable}
    (accepted : SymbolTable.ofProgram p = .ok roles) (given : List (TensorId × List Int))
    (covered : ∀ tensor ∈ roles.inputs, ∃ extents, lastEntry given tensor = some extents) :
    ((∃ table, infer p (handedOver (integral given)) = .ok table) ↔ ∃ shape, Explains p roles given shape) ∧
    (∀ shape other, Explains p roles given shape → Explains p roles given other →
      ∀ tensor, roles.contains tensor = true → shape tensor = other tensor) ∧
    ∀ shape table, Explains p roles given shape → infer p (handedOver (integral given)) = .ok table →
      ∀ tensor, roles.contains tensor = true → table.shape tensor = .ok ((shape tensor).map .ofInt) := by
  refine ⟨⟨?_, ?_⟩, fun shape other explains also tensor held => explains.unique also accepted held, ?_⟩
  · rintro ⟨table, worked⟩
    obtain ⟨-, agrees, demands⟩ := infer_wellShaped accepted covered worked
    exact ⟨table.integers, agrees, fun op member => Operation.consistent_iff_wellShaped.mpr (demands op member)⟩
  · rintro ⟨shape, explains⟩
    obtain ⟨table, worked, -⟩ := explains.inferred accepted
    exact ⟨table, worked⟩
  · intro shape table explains worked tensor held
    obtain ⟨table', worked', known⟩ := explains.inferred accepted
    have same : table = table' := Except.ok.inj (worked.symm.trans worked')
    exact same ▸ known tensor held

/-- The product of two matrices, turned, and its factors. -/
def productAndSplit : Program :=
  ⟨[.contraction ⟨[⟨0, [0, 1]⟩, ⟨1, [1, 2]⟩], [2, 0], 2, by decide, by decide, by decide⟩,
    .split ⟨2, 2, 1, 3, 4, by decide, by decide⟩]⟩

/-- Matrices that fit each other have one consistent choice of shapes; matrices that do
not have none. -/
theorem infer_decides_consistency_productAndSplit :
    ∃ roles, SymbolTable.ofProgram productAndSplit = .ok roles ∧
      (∃ shape, Explains productAndSplit roles [(0, [2, 3]), (1, [3, 4])] shape ∧ shape 3 = [4, 2]) ∧
      ¬ ∃ shape, Explains productAndSplit roles [(0, [2, 3]), (1, [5, 4])] shape := by
  have accepted : SymbolTable.ofProgram productAndSplit = .ok ⟨.ofList [(0, ⟨true, false⟩), (1, ⟨true, false⟩),
      (2, ⟨false, false⟩), (3, ⟨false, true⟩), (4, ⟨false, true⟩)]⟩ := rfl
  obtain ⟨table, worked, shown⟩ : ∃ table,
      infer productAndSplit (handedOver (integral [(0, [2, 3]), (1, [3, 4])])) = .ok table ∧
        table.shape 3 = .ok [.ofInt 4, .ofInt 2] := ⟨_, rfl, rfl⟩
  have decides := infer_decides_consistency accepted
  refine ⟨_, accepted, ?_, ?_⟩
  · obtain ⟨found, -, known⟩ := decides [(0, [2, 3]), (1, [3, 4])] (by
      intro tensor input
      rcases List.mem_pair.mp input with rfl | rfl <;> exact ⟨_, rfl⟩)
    obtain ⟨shape, explains⟩ := found.mp ⟨table, worked⟩
    refine ⟨shape, explains, ?_⟩
    have same := (known shape table explains worked 3 rfl).symm.trans shown
    have values := congrArg (List.map Extent.coefficient) (Except.ok.inj same)
    simpa [Function.comp_def, Extent.ofInt] using values
  · intro some
    obtain ⟨table, worked⟩ := (decides [(0, [2, 3]), (1, [5, 4])] (by
      intro tensor input
      rcases List.mem_pair.mp input with rfl | rfl <;> exact ⟨_, rfl⟩)).1.mpr some
    cases worked

end ShapeTable
end TensorNetwork
