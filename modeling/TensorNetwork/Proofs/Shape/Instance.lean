import TensorNetwork.Proofs.Construction
import TensorNetwork.Proofs.Extent.Value
import TensorNetwork.Proofs.Shape.Table
import TensorNetwork.Proofs.SingleAssignment

/-! Symbolic tables of shapes and their instances. An instance holds the integers
that the symbols stand for; every step that an instance can take, the symbolic
table can take too, and stays symbolic for it. -/
namespace TensorNetwork

/-- A shape once its symbols stand for integers. -/
def Shape.evaluate (v : String → Int) (shape : Shape Extent) : Shape Extent := shape.map fun a => .ofInt (a.value v)

@[simp] theorem Shape.evaluate_length (v : String → Int) (shape : Shape Extent) :
    (Shape.evaluate v shape).length = shape.length := List.length_map _

namespace ShapeTable
variable {v : String → Int} {symbolic concrete : ShapeTable Extent}

/-- Both tables know a tensor, and their shapes agree. -/
def Settled (v : String → Int) (symbolic concrete : ShapeTable Extent) (tensor : TensorId) : Prop :=
  ∃ shape, symbolic.shapes.get? tensor = some shape ∧ (∀ a ∈ shape, a.Proper) ∧
    concrete.shapes.get? tensor = some (Shape.evaluate v shape)

/-- The symbolic table has yet to invent symbols, and the instance holds what
these will stand for. -/
def Unsettled (v : String → Int) (symbolic concrete : ShapeTable Extent) (tensor : TensorId) : Prop :=
  symbolic.shapes.get? tensor = none ∧
    ∃ rank, concrete.shapes.get? tensor = some (Shape.evaluate v (freshShape tensor rank))

def Matches (v : String → Int) (symbolic concrete : ShapeTable Extent) (tensor : TensorId) : Prop :=
  Settled v symbolic concrete tensor ∨ Unsettled v symbolic concrete tensor

/-- Tables that change together: no tensor is unsettled or stops to match. -/
structure Advances (v : String → Int) (symbolic concrete symbolic' concrete' : ShapeTable Extent) : Prop where
  settled : ∀ tensor, Settled v symbolic concrete tensor → Settled v symbolic' concrete' tensor
  matching : ∀ tensor, Matches v symbolic concrete tensor → Matches v symbolic' concrete' tensor

theorem Advances.refl : Advances v symbolic concrete symbolic concrete := ⟨fun _ h => h, fun _ h => h⟩

theorem Advances.trans {symbolic' symbolic'' concrete' concrete'' : ShapeTable Extent}
    (first : Advances v symbolic concrete symbolic' concrete')
    (second : Advances v symbolic' concrete' symbolic'' concrete'') :
    Advances v symbolic concrete symbolic'' concrete'' :=
  ⟨fun t h => second.settled t (first.settled t h), fun t h => second.matching t (first.matching t h)⟩

theorem freshShape_proper (tensor : TensorId) (rank : Nat) : ∀ a ∈ freshShape tensor rank, a.Proper := by
  intro a member
  obtain ⟨axis, -, rfl⟩ := List.mem_map.mp member
  exact Extent.proper_symbol _

/-- Settling one tensor, with all others left alone, disturbs nothing. -/
theorem advances_of_settled {symbolic' concrete' : ShapeTable Extent} {tensor : TensorId}
    (here : Settled v symbolic' concrete' tensor)
    (symbols : ∀ other, tensor ≠ other → symbolic'.shapes.get? other = symbolic.shapes.get? other)
    (instances : ∀ other, tensor ≠ other → concrete'.shapes.get? other = concrete.shapes.get? other) :
    Advances v symbolic concrete symbolic' concrete' := by
  refine ⟨fun other known => ?_, fun other known => ?_⟩
  · by_cases same : tensor = other
    · exact same ▸ here
    · simpa [Settled, symbols other same, instances other same] using known
  · by_cases same : tensor = other
    · exact .inl (same ▸ here)
    · simpa [Matches, Settled, Unsettled, symbols other same, instances other same] using known

theorem settled_assign (tensor : TensorId) {shape : Shape Extent} (proper : ∀ a ∈ shape, a.Proper) :
    Settled v (symbolic.assign tensor shape) (concrete.assign tensor (Shape.evaluate v shape)) tensor :=
  ⟨shape, by simp [get?_assign], proper, by simp [get?_assign]⟩

theorem assign_advances (tensor : TensorId) {shape : Shape Extent} (proper : ∀ a ∈ shape, a.Proper) :
    Advances v symbolic concrete (symbolic.assign tensor shape)
      (concrete.assign tensor (Shape.evaluate v shape)) :=
  advances_of_settled (settled_assign tensor proper)
    (fun other apart => by simp [get?_assign, apart]) (fun other apart => by simp [get?_assign, apart])

/-- An instance can use a tensor only as the symbolic table can. -/
theorem use_follows {tensor : TensorId} {rank : Nat} {shape : Shape Extent} {concrete' : ShapeTable Extent}
    (matching : Matches v symbolic concrete tensor)
    (used : concrete.use tensor rank = .ok (shape, concrete')) :
    concrete' = concrete ∧ ∃ general symbolic', symbolic.use tensor rank = .ok (general, symbolic') ∧
      shape = Shape.evaluate v general ∧ (∀ a ∈ general, a.Proper) ∧ general.length = rank ∧
      Advances v symbolic concrete symbolic' concrete ∧ Settled v symbolic' concrete tensor := by
  rcases matching with ⟨general, known, proper, instanced⟩ | ⟨unknown, n, instanced⟩
  · simp only [use, instanced, Shape.evaluate_length] at used
    split at used
    · rename_i ranked
      cases used
      refine ⟨rfl, general, symbolic, ?_, rfl, proper, ranked, .refl, general, known, proper, instanced⟩
      simp [use, known, ranked]
    · cases used
  · simp only [use, instanced, Shape.evaluate_length, freshShape_length] at used
    split at used
    · rename_i ranked
      subst ranked
      cases used
      have proper := freshShape_proper tensor n
      have settled : Settled v (symbolic.assign tensor (freshShape tensor n)) concrete tensor :=
        ⟨_, by simp [get?_assign], proper, instanced⟩
      refine ⟨rfl, _, _, ?_, rfl, proper, freshShape_length tensor n, ?_, settled⟩
      · simp [use, unknown]
      · exact advances_of_settled settled (fun other apart => by simp [get?_assign, apart]) fun _ _ => rfl
    · cases used

/-- Labels bound to extents, and to the integers these stand for. -/
structure BoundAlike (v : String → Int) (general bound : IntMap Extent) : Prop where
  values : ∀ label, bound.get? label = (general.get? label).map fun a => .ofInt (a.value v)
  proper : ∀ label a, general.get? label = some a → a.Proper

theorem BoundAlike.insert {general bound : IntMap Extent} (alike : BoundAlike v general bound) (label : Label)
    {a : Extent} (proper : a.Proper) :
    BoundAlike v (general.insert label a) (bound.insert label (.ofInt (a.value v))) := by
  refine ⟨fun other => ?_, fun other b => ?_⟩
  · rw [IntMap.get?_insert, IntMap.get?_insert, alike.values]
    by_cases same : label = other <;> simp [same]
  · rw [IntMap.get?_insert]
    by_cases same : label = other
    · simp only [same, if_true, Option.some.injEq]
      rintro rfl
      exact proper
    · simpa [same] using alike.proper other b

theorem disagrees_ofInt (m n : Int) : (Extent.ofInt m).disagrees (.ofInt n) = decide (m ≠ n) := by
  simp only [Extent.disagrees, Extent.difference?, Extent.ofInt, Extent.integer?]
  by_cases same : m = n
  · simp [same]
  · have apart : m - n ≠ 0 := by omega
    simp [same, apart]

/-- Integers that agree come from extents that cannot be told apart. -/
theorem bindAxis_follows {tensor : TensorId} {label : Label} {a : Extent} (proper : a.Proper)
    {general bound bound' : IntMap Extent} (alike : BoundAlike v general bound)
    (bound_ok : bindAxis tensor bound (label, .ofInt (a.value v)) = .ok bound') :
    ∃ general', bindAxis tensor general (label, a) = .ok general' ∧ BoundAlike v general' bound' := by
  have values := alike.values label
  cases known : general.get? label with
  | none =>
    simp only [known, Option.map_none] at values
    simp only [bindAxis, values, Except.ok.injEq] at bound_ok
    subst bound_ok
    exact ⟨general.insert label a, by simp [bindAxis, known], alike.insert label proper⟩
  | some expected =>
    simp only [known, Option.map_some] at values
    simp only [bindAxis, values, Extent.algebra_disagrees, disagrees_ofInt] at bound_ok
    split at bound_ok
    · cases bound_ok
    · rename_i agree
      cases bound_ok
      have same : expected.value v = a.value v := by simpa using agree
      have undecided : expected.disagrees a ≠ true := fun disagree =>
        Extent.value_ne_of_disagrees v disagree same
      exact ⟨general, by simp [bindAxis, known, undecided], alike⟩

theorem bindAxes_follows {tensor : TensorId} {axes : List (Label × Extent)}
    (proper : ∀ axis ∈ axes, axis.2.Proper) {general bound bound' : IntMap Extent}
    (alike : BoundAlike v general bound)
    (bound_ok : (axes.map fun axis => (axis.1, Extent.ofInt (axis.2.value v))).foldlM (bindAxis tensor) bound =
      .ok bound') :
    ∃ general', axes.foldlM (bindAxis tensor) general = .ok general' ∧ BoundAlike v general' bound' := by
  induction axes generalizing general bound with
  | nil =>
    cases bound_ok
    exact ⟨general, rfl, alike⟩
  | cons axis rest ih =>
    rw [List.map_cons, List.foldlM_cons, Outcome.bind_eq_ok] at bound_ok
    obtain ⟨middle, first, others⟩ := bound_ok
    obtain ⟨general', stepped, alike⟩ := bindAxis_follows (proper axis List.mem_cons_self) alike first
    obtain ⟨general'', done, alike⟩ := ih (fun x member => proper x (List.mem_cons_of_mem _ member)) alike others
    exact ⟨general'', by rw [List.foldlM_cons, Outcome.bind_eq_ok]; exact ⟨general', stepped, done⟩, alike⟩

theorem bindOperand_follows {operand : Operand} {general bound bound' : IntMap Extent} {concrete' : ShapeTable Extent}
    (matching : Matches v symbolic concrete operand.tensor) (alike : BoundAlike v general bound)
    (bound_ok : bindOperand (concrete, bound) operand = .ok (concrete', bound')) :
    concrete' = concrete ∧ ∃ symbolic' general',
      bindOperand (symbolic, general) operand = .ok (symbolic', general') ∧ BoundAlike v general' bound' ∧
      Advances v symbolic concrete symbolic' concrete ∧ Settled v symbolic' concrete operand.tensor := by
  rw [bindOperand, Outcome.bind_eq_ok] at bound_ok
  obtain ⟨⟨shape, table⟩, used, bound_ok⟩ := bound_ok
  obtain ⟨final, axes, done⟩ := Outcome.bind_eq_ok.mp bound_ok
  cases done
  obtain ⟨rfl, shape', symbolic', used', rfl, proper, -, advances, settled⟩ := use_follows matching used
  have zipped : operand.labels.zip (Shape.evaluate v shape') =
      (operand.labels.zip shape').map fun axis => (axis.1, Extent.ofInt (axis.2.value v)) := by
    rw [Shape.evaluate, List.zip_map_right]
    rfl
  rw [zipped] at axes
  obtain ⟨general', stepped, alike⟩ :=
    bindAxes_follows (fun axis member => proper _ (List.of_mem_zip member).2) alike axes
  refine ⟨rfl, symbolic', general', ?_, alike, advances, settled⟩
  rw [bindOperand, Outcome.bind_eq_ok]
  exact ⟨(shape', symbolic'), used', Outcome.bind_eq_ok.mpr ⟨general', stepped, rfl⟩⟩

theorem bindOperands_follows {operands : List Operand} {general bound bound' : IntMap Extent}
    {concrete' : ShapeTable Extent} (matching : ∀ operand ∈ operands, Matches v symbolic concrete operand.tensor)
    (alike : BoundAlike v general bound)
    (bound_ok : operands.foldlM bindOperand (concrete, bound) = .ok (concrete', bound')) :
    concrete' = concrete ∧ ∃ symbolic' general',
      operands.foldlM bindOperand (symbolic, general) = .ok (symbolic', general') ∧
      BoundAlike v general' bound' ∧ Advances v symbolic concrete symbolic' concrete ∧
      ∀ operand ∈ operands, Settled v symbolic' concrete operand.tensor := by
  induction operands generalizing symbolic general bound with
  | nil =>
    cases bound_ok
    exact ⟨rfl, symbolic, general, rfl, alike, .refl, by simp⟩
  | cons operand rest ih =>
    rw [List.foldlM_cons, Outcome.bind_eq_ok] at bound_ok
    obtain ⟨⟨table, middle⟩, first, others⟩ := bound_ok
    obtain ⟨rfl, symbolic', general', stepped, alike, advances, settled⟩ :=
      bindOperand_follows (matching operand List.mem_cons_self) alike first
    obtain ⟨rfl, symbolic'', general'', done, alike, further, settledRest⟩ :=
      ih (fun o member => advances.matching _ (matching o (List.mem_cons_of_mem _ member))) alike others
    refine ⟨rfl, symbolic'', general'', ?_, alike, advances.trans further, ?_⟩
    · rw [List.foldlM_cons, Outcome.bind_eq_ok]
      exact ⟨_, stepped, done⟩
    · intro o member
      rcases List.mem_cons.mp member with rfl | later
      · exact further.settled _ settled
      · exact settledRest o later

theorem keptExtents_follow {general bound : IntMap Extent} (alike : BoundAlike v general bound)
    {kept : List Label} {shape : Shape Extent} (found : kept.mapM (keptExtent bound) = .ok shape) :
    ∃ general', kept.mapM (keptExtent general) = .ok general' ∧ shape = Shape.evaluate v general' ∧
      ∀ a ∈ general', a.Proper := by
  have all := Outcome.mapM_eq_ok.mp found
  clear found
  induction all with
  | nil => exact ⟨[], rfl, rfl, by simp⟩
  | @cons label a labels shape head others ih =>
    obtain ⟨general', found, rfl, proper⟩ := ih
    have values := alike.values label
    cases known : general.get? label with
    | none => simp [keptExtent, values, known] at head
    | some b =>
      simp only [keptExtent, values, known, Option.map_some, Except.ok.injEq] at head
      subst head
      refine ⟨b :: general', ?_, rfl, ?_⟩
      · exact Outcome.mapM_eq_ok.mpr (.cons (by simp [keptExtent, known]) (Outcome.mapM_eq_ok.mp found))
      · intro x member
        rcases List.mem_cons.mp member with rfl | later
        · exact alike.proper label x known
        · exact proper x later

theorem contract_follows {c : Contraction} {concrete' : ShapeTable Extent}
    (matching : ∀ tensor ∈ c.inputs, Matches v symbolic concrete tensor)
    (stepped : concrete.contract c = .ok concrete') :
    ∃ symbolic', symbolic.contract c = .ok symbolic' ∧ Advances v symbolic concrete symbolic' concrete' ∧
      ∀ tensor ∈ c.inputs ++ [c.output], Settled v symbolic' concrete' tensor := by
  rw [contract, Outcome.bind_eq_ok] at stepped
  obtain ⟨⟨table, bound⟩, operands, stepped⟩ := stepped
  obtain ⟨shape, kept, done⟩ := Outcome.bind_eq_ok.mp stepped
  cases done
  have empty : BoundAlike v .empty .empty := ⟨fun _ => rfl, fun _ _ none => by cases none⟩
  obtain ⟨rfl, symbolic', general, operands', alike, advances, settled⟩ :=
    bindOperands_follows (fun operand member => matching _ (List.mem_map_of_mem member)) empty operands
  obtain ⟨shape', kept', rfl, proper⟩ := keptExtents_follow alike kept
  have further := @assign_advances v symbolic' table c.output _ proper
  refine ⟨symbolic'.assign c.output shape', ?_, advances.trans further, ?_⟩
  · rw [contract, Outcome.bind_eq_ok]
    exact ⟨_, operands', Outcome.bind_eq_ok.mpr ⟨shape', kept', rfl⟩⟩
  · intro tensor member
    rcases List.mem_append.mp member with input | output
    · obtain ⟨operand, held, rfl⟩ := List.mem_map.mp input
      exact further.settled _ (settled operand held)
    · rw [List.mem_singleton.mp output]
      exact settled_assign c.output proper

theorem arrange_evaluate (t : Transposition) (shape : Shape Extent) :
    t.arrange (Shape.evaluate v shape) = Shape.evaluate v (t.arrange shape) := t.arrange_map _ shape

theorem proper_arrange (t : Transposition) {shape : Shape Extent} (proper : ∀ a ∈ shape, a.Proper) :
    ∀ a ∈ t.arrange shape, a.Proper :=
  fun a member => proper a (t.mem_of_arrange member)

theorem transpose_follows {t : Transposition} {concrete' : ShapeTable Extent}
    (matching : Matches v symbolic concrete t.input) (stepped : concrete.transpose t = .ok concrete') :
    ∃ symbolic', symbolic.transpose t = .ok symbolic' ∧ Advances v symbolic concrete symbolic' concrete' ∧
      ∀ tensor ∈ [t.input, t.output], Settled v symbolic' concrete' tensor := by
  rw [transpose, Outcome.bind_eq_ok] at stepped
  obtain ⟨⟨shape, table⟩, used, done⟩ := stepped
  cases done
  obtain ⟨rfl, shape', symbolic', used', rfl, proper, -, advances, settled⟩ := use_follows matching used
  have arranged := proper_arrange t proper
  have further := @assign_advances v symbolic' table t.output _ arranged
  refine ⟨symbolic'.assign t.output (t.arrange shape'), ?_, ?_, ?_⟩
  · rw [transpose, Outcome.bind_eq_ok]
    exact ⟨_, used', rfl⟩
  · rw [arrange_evaluate]
    exact advances.trans further
  · intro tensor member
    rw [arrange_evaluate]
    rcases List.mem_cons.mp member with rfl | output
    · exact further.settled _ settled
    · rw [List.mem_singleton.mp output]
      exact settled_assign t.output arranged

theorem product_ofInts (integers : List Int) :
    Extent.product (integers.map Extent.ofInt) = .ofInt integers.prod := by
  have factors : (integers.map Extent.ofInt).flatMap Extent.factors = [] := by
    simp [List.flatMap_map, Extent.ofInt]
  have coefficients : (integers.map Extent.ofInt).map Extent.coefficient = integers := by
    simp [Function.comp_def, Extent.ofInt]
  rw [Extent.product, Extent.coefficient_foldr, coefficients, factors, Ordered.sort_nil, Extent.scaled]
  split
  · rename_i zero
    rw [zero]
  · rfl

theorem members_ofInt (n : Int) : (Extent.ofInt n).members = [.ofInt n] := by
  unfold Extent.members
  split
  · rename_i smallest
    cases smallest
  · rfl

theorem exceeds_ofInt (m n : Int) : (Extent.ofInt m).exceeds (.ofInt n) = decide (n < m) := by
  simp only [Extent.exceeds, Extent.difference?, Extent.ofInt, Extent.integer?]
  exact decide_eq_decide.mpr (by omega)

theorem least_ofInts (m n : Int) : Extent.least [.ofInt m, .ofInt n] = .ofInt (min m n) := by
  have normal : Extent.normalMembers [.ofInt m, .ofInt n] = [.ofInt (min m n)] := by
    have apart : [Extent.ofInt m, .ofInt n].flatMap Extent.members = [.ofInt m, .ofInt n] := by
      simp [members_ofInt]
    rw [Extent.normalMembers, apart]
    rcases lt_trichotomy m n with below | rfl | above
    · simp [exceeds_ofInt, below, below.not_gt, below.le, List.eraseDups_cons]
    · simp [exceeds_ofInt, List.eraseDups_cons]
    · simp [exceeds_ofInt, above, above.not_gt, above.le, List.eraseDups_cons]
  rw [Extent.least, normal]

/-- The bond of an instance is what the symbolic bond stands for. -/
theorem bond_evaluate (left : Nat) {shape : Shape Extent} (proper : ∀ a ∈ shape, a.Proper) :
    bond left (Shape.evaluate v shape) = .ofInt ((bond left shape).value v) := by
  have side : ∀ part : Shape Extent, Extent.product (Shape.evaluate v part) =
      .ofInt ((part.map (Extent.value v)).prod) := by
    intro part
    rw [← product_ofInts, List.map_map]
    rfl
  have sidesProper : ∀ a ∈ [Extent.product (shape.take left), Extent.product (shape.drop left)], a.Proper := by
    intro a member
    rcases List.mem_pair.mp member with rfl | rfl
    · exact Extent.proper_product fun b held => proper b (List.mem_of_mem_take held)
    · exact Extent.proper_product fun b held => proper b (List.mem_of_mem_drop held)
  have taken : (Shape.evaluate v shape).take left = Shape.evaluate v (shape.take left) := List.map_take.symm
  have dropped : (Shape.evaluate v shape).drop left = Shape.evaluate v (shape.drop left) := List.map_drop.symm
  simp only [bond, sides, Extent.algebra_product, Extent.algebra_least]
  rw [taken, dropped, side, side, least_ofInts]
  refine congrArg _ (Extent.value_least v sidesProper ?_).symm
  simp [List.min?, Extent.value_product]

theorem proper_bond (left : Nat) {shape : Shape Extent} (proper : ∀ a ∈ shape, a.Proper) :
    (bond left shape).Proper := by
  apply Extent.proper_least (List.cons_ne_nil _ _)
  intro a member
  rcases List.mem_pair.mp member with rfl | rfl
  · exact Extent.proper_product fun b held => proper b (List.mem_of_mem_take held)
  · exact Extent.proper_product fun b held => proper b (List.mem_of_mem_drop held)

theorem split_follows {s : Split} {concrete' : ShapeTable Extent}
    (matching : Matches v symbolic concrete s.input) (stepped : concrete.split s = .ok concrete') :
    ∃ symbolic', symbolic.split s = .ok symbolic' ∧ Advances v symbolic concrete symbolic' concrete' ∧
      ∀ tensor ∈ [s.input, s.q, s.r], Settled v symbolic' concrete' tensor := by
  rw [split, Outcome.bind_eq_ok] at stepped
  obtain ⟨⟨shape, table⟩, used, done⟩ := stepped
  cases done
  obtain ⟨rfl, shape', symbolic', used', rfl, proper, -, advances, settled⟩ := use_follows matching used
  have bonded := proper_bond s.left proper
  have left : (Shape.evaluate v shape').take s.left ++ [bond s.left (Shape.evaluate v shape')] =
      Shape.evaluate v (shape'.take s.left ++ [bond s.left shape']) := by
    rw [bond_evaluate s.left proper]
    simp [Shape.evaluate]
  have right : bond s.left (Shape.evaluate v shape') :: (Shape.evaluate v shape').drop s.left =
      Shape.evaluate v (bond s.left shape' :: shape'.drop s.left) := by
    rw [bond_evaluate s.left proper]
    simp [Shape.evaluate]
  have leftProper : ∀ a ∈ shape'.take s.left ++ [bond s.left shape'], a.Proper := by
    intro a member
    rcases List.mem_append.mp member with axis | last
    · exact proper a (List.mem_of_mem_take axis)
    · exact List.mem_singleton.mp last ▸ bonded
  have rightProper : ∀ a ∈ bond s.left shape' :: shape'.drop s.left, a.Proper := by
    intro a member
    rcases List.mem_cons.mp member with rfl | axis
    · exact bonded
    · exact proper a (List.mem_of_mem_drop axis)
  have first := @assign_advances v symbolic' table s.q _ leftProper
  have second := @assign_advances v (symbolic'.assign s.q (shape'.take s.left ++ [bond s.left shape']))
    (table.assign s.q (Shape.evaluate v (shape'.take s.left ++ [bond s.left shape']))) s.r _ rightProper
  refine ⟨(symbolic'.assign s.q (shape'.take s.left ++ [bond s.left shape'])).assign s.r
    (bond s.left shape' :: shape'.drop s.left), ?_, ?_, ?_⟩
  · rw [split, Outcome.bind_eq_ok]
    exact ⟨_, used', rfl⟩
  · rw [left, right]
    exact advances.trans (first.trans second)
  · intro tensor member
    rw [left, right]
    simp only [List.mem_cons, List.not_mem_nil, or_false] at member
    rcases member with rfl | rfl | rfl
    · exact second.settled _ (first.settled _ settled)
    · exact second.settled _ (settled_assign s.q leftProper)
    · exact settled_assign s.r rightProper

/-- One step of an instance is one step of the symbolic table, after which the
tensors of the operation are settled. -/
theorem step_follows {op : Operation} {concrete' : ShapeTable Extent}
    (matching : ∀ tensor ∈ op.inputs, Matches v symbolic concrete tensor)
    (stepped : concrete.step op = .ok concrete') :
    ∃ symbolic', symbolic.step op = .ok symbolic' ∧ Advances v symbolic concrete symbolic' concrete' ∧
      ∀ tensor ∈ op.inputs ++ op.outputs, Settled v symbolic' concrete' tensor := by
  cases op with
  | contraction c => exact contract_follows matching stepped
  | transposition t => exact transpose_follows (matching t.input List.mem_cons_self) stepped
  | split s => exact split_follows (matching s.input List.mem_cons_self) stepped
  | foreign f => cases stepped

/-- A run of an instance is a run of the symbolic table. -/
theorem run_follows {ops : List Operation} {concrete' : ShapeTable Extent} (single : SingleAssignment ops)
    (matching : ∀ tensor ∈ consumed ops, tensor ∉ produced ops → Matches v symbolic concrete tensor)
    (run : ops.foldlM step concrete = .ok concrete') :
    ∃ symbolic', ops.foldlM step symbolic = .ok symbolic' ∧
      ∀ tensor ∈ consumed ops ++ produced ops, Settled v symbolic' concrete' tensor := by
  -- Inputs match from the start; what was mentioned is settled.
  suffices goal : ∃ symbolic', ops.foldlM step symbolic = .ok symbolic' ∧
      (∀ tensor ∈ consumed ops, tensor ∉ produced ops → Matches v symbolic' concrete' tensor) ∧
      ∀ tensor ∈ consumed ops ++ produced ops, Settled v symbolic' concrete' tensor by
    obtain ⟨symbolic', done, -, settled⟩ := goal
    exact ⟨symbolic', done, settled⟩
  refine Outcome.foldlM_induction (P := fun before table => ∃ symbolic',
    before.foldlM step symbolic = .ok symbolic' ∧
      (∀ tensor ∈ consumed ops, tensor ∉ produced ops → Matches v symbolic' table tensor) ∧
      ∀ tensor ∈ consumed before ++ produced before, Settled v symbolic' table tensor)
    ⟨symbolic, rfl, matching, by simp [consumed, produced]⟩ ?_ run
  rintro before op after table next split ⟨symbolic', done, inputs, settled⟩ stepped
  have ready : ∀ tensor ∈ op.inputs, Matches v symbolic' table tensor := by
    intro tensor used
    by_cases made : tensor ∈ produced ops
    · rw [split] at single made
      exact .inl (settled tensor (List.mem_append_right _ (single.produced_before used made)))
    · refine inputs tensor ?_ made
      simp [split, consumed, used]
  obtain ⟨symbolic'', stepped', advances, here⟩ := step_follows ready stepped
  refine ⟨symbolic'', ?_, fun t used made => advances.matching t (inputs t used made), ?_⟩
  · rw [List.foldlM_append, Outcome.bind_eq_ok]
    refine ⟨symbolic', done, ?_⟩
    rw [List.foldlM_cons, Outcome.bind_eq_ok]
    exact ⟨symbolic'', stepped', rfl⟩
  · intro tensor member
    simp only [consumed_snoc, produced_snoc, List.mem_append] at member
    rcases member with (old | new) | old | new
    · exact advances.settled tensor (settled tensor (List.mem_append_left _ old))
    · exact here tensor (List.mem_append_left _ new)
    · exact advances.settled tensor (settled tensor (List.mem_append_right _ old))
    · exact here tensor (List.mem_append_right _ new)

end ShapeTable
end TensorNetwork
