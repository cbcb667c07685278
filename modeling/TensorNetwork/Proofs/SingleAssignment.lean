import TensorNetwork.Proofs.Outcome
import TensorNetwork.SymbolTable

/-! What a symbol table holds. Operations can be recorded exactly if each produces
tensors that nothing before it mentions, and then the role of a tensor says
whether it is produced and whether it is consumed, anywhere. -/
namespace TensorNetwork

namespace IntMap
variable {α : Type}

theorem mem_of_lookup {key : Int} {value : α} {l : List (Int × α)}
    (found : lookup key l = some value) : (key, value) ∈ l := by
  induction l with
  | nil => simp [lookup] at found
  | cons head tail ih =>
    by_cases hit : head.1 = key
    · simp only [lookup, hit, if_true, Option.some.injEq] at found
      rw [← hit, ← found]
      exact List.mem_cons_self
    · exact List.mem_cons_of_mem _ (ih (by simpa [lookup, hit] using found))

theorem lookup_of_mem {key : Int} {value : α} {l : List (Int × α)}
    (sorted : l.Pairwise fun a b => a.1 < b.1) (member : (key, value) ∈ l) :
    lookup key l = some value := by
  induction l with
  | nil => cases member
  | cons head tail ih =>
    obtain ⟨first, rest⟩ := List.pairwise_cons.mp sorted
    rcases List.mem_cons.mp member with rfl | later
    · simp [lookup]
    · have := first _ later
      have apart : head.1 ≠ key := by
        intro same
        simp [same] at this
      simpa [lookup, apart] using ih rest later

theorem mem_entries {m : IntMap α} {key : Int} {value : α} :
    (key, value) ∈ m.entries ↔ m.get? key = some value :=
  ⟨lookup_of_mem m.ascending, mem_of_lookup⟩

theorem mem_keys {m : IntMap α} {key : Int} : key ∈ m.keys ↔ m.contains key = true := by
  rw [keys, contains, Option.isSome_iff_exists]
  simp only [List.mem_map, Prod.exists, exists_and_right, exists_eq_right, mem_entries]

end IntMap

namespace Operation

/-- The kinds of operations that have a meaning. -/
def Known : Operation → Prop
  | .foreign _ => False
  | _ => True

theorem outputs_ne_nil {op : Operation} (known : op.Known) : op.outputs ≠ [] := by
  cases op with
  | contraction c => simp [outputs]
  | transposition t => simp [outputs]
  | split s => simp [outputs]
  | foreign f => exact known.elim

end Operation

def consumed (ops : List Operation) : List TensorId := ops.flatMap Operation.inputs

def produced (ops : List Operation) : List TensorId := ops.flatMap Operation.outputs

@[simp] theorem consumed_snoc (ops : List Operation) (op : Operation) :
    consumed (ops ++ [op]) = consumed ops ++ op.inputs := by
  simp [consumed]

@[simp] theorem produced_snoc (ops : List Operation) (op : Operation) :
    produced (ops ++ [op]) = produced ops ++ op.outputs := by
  simp [produced]

theorem mentioned_of_mem {ops : List Operation} {op : Operation} (member : op ∈ ops) {tensor : TensorId}
    (occurs : tensor ∈ op.inputs ++ op.outputs) : tensor ∈ consumed ops ++ produced ops := by
  rcases List.mem_append.mp occurs with input | output
  · exact List.mem_append_left _ (List.mem_flatMap.mpr ⟨op, member, input⟩)
  · exact List.mem_append_right _ (List.mem_flatMap.mpr ⟨op, member, output⟩)

/-- An operation may follow others if each tensor that it produces is new. -/
structure Admits (before : List Operation) (op : Operation) : Prop where
  known : op.Known
  nodup : op.outputs.Nodup
  unused : ∀ tensor ∈ op.outputs, tensor ∉ op.inputs
  unconsumed : ∀ tensor ∈ op.outputs, tensor ∉ consumed before
  unproduced : ∀ tensor ∈ op.outputs, tensor ∉ produced before

theorem split_apart {s : Split} (nodup : (Operation.split s).outputs.Nodup)
    (unused : ∀ tensor ∈ (Operation.split s).outputs, tensor ∉ (Operation.split s).inputs) :
    s.q ≠ s.r ∧ s.input ≠ s.q ∧ s.input ≠ s.r := by
  refine ⟨by simpa [Operation.outputs] using nodup, fun same => ?_, fun same => ?_⟩
  · exact unused s.q (by simp [Operation.outputs]) (by simp [Operation.inputs, same])
  · exact unused s.r (by simp [Operation.outputs]) (by simp [Operation.inputs, same])

def SingleAssignment (ops : List Operation) : Prop :=
  ∀ before op after, ops = before ++ op :: after → Admits before op

namespace SingleAssignment

theorem nil : SingleAssignment [] := by
  intro before op after split
  simp at split

theorem snoc_iff {ops : List Operation} {op : Operation} :
    SingleAssignment (ops ++ [op]) ↔ SingleAssignment ops ∧ Admits ops op := by
  constructor
  · intro single
    refine ⟨fun before o after split => ?_, single ops op [] rfl⟩
    exact single before o (after ++ [op]) (by simp [split])
  · rintro ⟨single, admits⟩ before o after split
    -- The last member is either the one looked at or one that comes after it.
    rcases List.eq_nil_or_concat' after with rfl | ⟨later, last, rfl⟩
    · obtain ⟨rfl, same⟩ := List.append_inj' split rfl
      cases same
      exact admits
    · have regrouped : ops ++ [op] = (before ++ o :: later) ++ [last] := by simpa using split
      obtain ⟨rfl, -⟩ := List.append_inj' regrouped rfl
      exact single before o later rfl

theorem known {ops : List Operation} (single : SingleAssignment ops) : ∀ op ∈ ops, op.Known := by
  intro op member
  obtain ⟨before, after, split⟩ := List.append_of_mem member
  exact (single before op after split).known

theorem separate {ops : List Operation} (single : SingleAssignment ops) :
    ∀ op ∈ ops, op.outputs.Nodup ∧ ∀ tensor ∈ op.outputs, tensor ∉ op.inputs := by
  intro op member
  obtain ⟨before, after, split⟩ := List.append_of_mem member
  have admits := single before op after split
  exact ⟨admits.nodup, admits.unused⟩

/-- The tensors of an operation are not produced again. -/
theorem not_produced_later {before after : List Operation} {op : Operation}
    (single : SingleAssignment (before ++ op :: after)) {tensor : TensorId}
    (occurs : tensor ∈ op.inputs ++ op.outputs) : tensor ∉ produced after := by
  intro late
  obtain ⟨o, member, output⟩ := List.mem_flatMap.mp late
  obtain ⟨between, rest, split⟩ := List.append_of_mem member
  have admits := single (before ++ op :: between) o rest (by simp [split])
  rcases List.mem_append.mp occurs with used | made
  · exact admits.unconsumed tensor output (by simp [consumed, used])
  · exact admits.unproduced tensor output (by simp [produced, made])

/-- What an operation uses was produced before it or is never produced. -/
theorem produced_before {before after : List Operation} {op : Operation}
    (single : SingleAssignment (before ++ op :: after)) {tensor : TensorId} (used : tensor ∈ op.inputs)
    (made : tensor ∈ produced (before ++ op :: after)) : tensor ∈ produced before := by
  simp only [produced, List.flatMap_append, List.flatMap_cons, List.mem_append] at made
  rcases made with early | here | late
  · exact early
  · exact absurd used ((single before op after rfl).unused tensor here)
  · exact absurd late (single.not_produced_later (List.mem_append_left _ used))

end SingleAssignment

namespace SymbolTable

/-- The role that a tensor has among some operations. -/
def roleAmong (ops : List Operation) (tensor : TensorId) : Option Role :=
  if tensor ∈ produced ops then some ⟨false, tensor ∉ consumed ops⟩
  else if tensor ∈ consumed ops then some ⟨true, false⟩
  else none

def Describes (roles : IntMap Role) (ops : List Operation) : Prop :=
  ∀ tensor, roles.get? tensor = roleAmong ops tensor

theorem get?_use (roles : IntMap Role) (tensor other : TensorId) :
    (use roles tensor).get? other =
      if tensor = other then
        some (((roles.get? other).map fun role => { role with isOutput := false }).getD ⟨true, false⟩)
      else roles.get? other := by
  unfold use
  by_cases same : tensor = other
  · subst same
    cases roles.get? tensor <;> simp [IntMap.get?_insert]
  · cases roles.get? tensor <;> simp [IntMap.get?_insert, same]

/-- Using tensors again changes nothing more. -/
theorem get?_foldl_use (tensors : List TensorId) (roles : IntMap Role) (other : TensorId) :
    (tensors.foldl use roles).get? other =
      if other ∈ tensors then
        some (((roles.get? other).map fun role => { role with isOutput := false }).getD ⟨true, false⟩)
      else roles.get? other := by
  induction tensors generalizing roles with
  | nil => simp
  | cons tensor rest ih =>
    rw [List.foldl_cons, ih, get?_use]
    by_cases same : tensor = other
    · subst same
      cases roles.get? tensor <;> simp
    · have apart : other ≠ tensor := Ne.symm same
      simp [same, apart]

theorem foldlM_define {tensors : List TensorId} {roles final : IntMap Role} :
    tensors.foldlM define roles = .ok final ↔
      tensors.Nodup ∧ (∀ tensor ∈ tensors, roles.get? tensor = none) ∧
        final = tensors.foldl (fun m tensor => m.insert tensor ⟨false, true⟩) roles := by
  induction tensors generalizing roles with
  | nil => simp [pure, Except.pure, eq_comm]
  | cons tensor rest ih =>
    rw [List.foldlM_cons, Outcome.bind_eq_ok]
    cases known : roles.get? tensor with
    | some role => simp [define, IntMap.contains, known]
    | none =>
      have absent : roles.contains tensor = false := by simp [IntMap.contains, known]
      simp only [define, absent, Bool.false_eq_true, if_false, Except.ok.injEq, exists_eq_left', ih,
        IntMap.get?_insert, List.nodup_cons, List.mem_cons, forall_eq_or_imp, List.foldl_cons, known,
        true_and]
      constructor
      · rintro ⟨nodup, fresh, same⟩
        have new : tensor ∉ rest := fun member => by simpa using fresh tensor member
        refine ⟨⟨new, nodup⟩, fun other member => ?_, same⟩
        have apart : tensor ≠ other := fun hit => new (hit ▸ member)
        simpa [apart] using fresh other member
      · rintro ⟨⟨new, nodup⟩, fresh, same⟩
        refine ⟨nodup, fun other member => ?_, same⟩
        have apart : tensor ≠ other := fun hit => new (hit ▸ member)
        simpa [apart] using fresh other member

theorem get?_foldl_insert (tensors : List TensorId) (roles : IntMap Role) (role : Role)
    (other : TensorId) :
    (tensors.foldl (fun m tensor => m.insert tensor role) roles).get? other =
      if other ∈ tensors then some role else roles.get? other := by
  induction tensors generalizing roles with
  | nil => simp
  | cons tensor rest ih =>
    rw [List.foldl_cons, ih, IntMap.get?_insert]
    by_cases same : other = tensor
    · simp [same]
    · simp [same, Ne.symm same]

theorem record_known {op : Operation} (known : op.Known) (roles : IntMap Role) :
    record roles op = op.outputs.foldlM define (op.inputs.foldl use roles) := by
  cases op with
  | foreign f => exact known.elim
  | contraction c => rfl
  | transposition t => rfl
  | split s => rfl

theorem roleAmong_eq_none {ops : List Operation} {tensor : TensorId} :
    roleAmong ops tensor = none ↔ tensor ∉ consumed ops ∧ tensor ∉ produced ops := by
  unfold roleAmong
  by_cases made : tensor ∈ produced ops <;> by_cases used : tensor ∈ consumed ops <;> simp [made, used]

theorem describes_empty : Describes .empty [] := by
  intro tensor
  simp [roleAmong, produced, consumed]

/-- Recording an admitted operation brings the roles up to date. -/
theorem describes_recorded {roles : IntMap Role} {ops : List Operation} {op : Operation}
    (described : Describes roles ops) (admits : Admits ops op) :
    Describes (op.outputs.foldl (fun m tensor => m.insert tensor ⟨false, true⟩) (op.inputs.foldl use roles))
      (ops ++ [op]) := by
  intro tensor
  rw [get?_foldl_insert, get?_foldl_use, described tensor]
  simp only [roleAmong, consumed_snoc, produced_snoc, List.mem_append]
  by_cases output : tensor ∈ op.outputs
  · have unused := admits.unused tensor output
    have unconsumed := admits.unconsumed tensor output
    simp [output, unused, unconsumed]
  · by_cases input : tensor ∈ op.inputs <;> by_cases made : tensor ∈ produced ops <;>
      by_cases used : tensor ∈ consumed ops <;> simp [output, input, made, used]

theorem record_eq_ok {roles next : IntMap Role} {ops : List Operation} {op : Operation}
    (described : Describes roles ops) :
    record roles op = .ok next ↔ Admits ops op ∧
      next = op.outputs.foldl (fun m tensor => m.insert tensor ⟨false, true⟩) (op.inputs.foldl use roles) := by
  have fresh : ∀ tensor, (op.inputs.foldl use roles).get? tensor = none ↔
      tensor ∉ op.inputs ∧ tensor ∉ consumed ops ∧ tensor ∉ produced ops := by
    intro tensor
    rw [get?_foldl_use, described tensor, ← roleAmong_eq_none]
    by_cases input : tensor ∈ op.inputs <;> simp [input]
  constructor
  · intro recorded
    have known : op.Known := by
      cases op with
      | foreign f => simp [record] at recorded
      | _ => trivial
    rw [record_known known, foldlM_define] at recorded
    obtain ⟨nodup, new, same⟩ := recorded
    exact ⟨⟨known, nodup, fun t member => ((fresh t).mp (new t member)).1,
      fun t member => ((fresh t).mp (new t member)).2.1,
      fun t member => ((fresh t).mp (new t member)).2.2⟩, same⟩
  · rintro ⟨admits, same⟩
    rw [record_known admits.known, foldlM_define]
    exact ⟨admits.nodup, fun t member => (fresh t).mpr
      ⟨admits.unused t member, admits.unconsumed t member, admits.unproduced t member⟩, same⟩

theorem recorded_of_ok {ops : List Operation} {roles : IntMap Role}
    (recorded : ops.foldlM record .empty = .ok roles) : SingleAssignment ops ∧ Describes roles ops := by
  refine Outcome.foldlM_induction (P := fun ops roles => SingleAssignment ops ∧ Describes roles ops)
    ⟨.nil, describes_empty⟩ ?_ recorded
  rintro before op after roles next - ⟨single, described⟩ stepped
  obtain ⟨admits, rfl⟩ := (record_eq_ok described).mp stepped
  exact ⟨SingleAssignment.snoc_iff.mpr ⟨single, admits⟩, describes_recorded described admits⟩

theorem recorded_of_singleAssignment {ops : List Operation} (single : SingleAssignment ops) :
    ∃ roles, ops.foldlM record .empty = .ok roles ∧ Describes roles ops := by
  induction ops using List.reverseRecOn with
  | nil => exact ⟨.empty, rfl, describes_empty⟩
  | append_singleton before op ih =>
    obtain ⟨earlier, admits⟩ := SingleAssignment.snoc_iff.mp single
    obtain ⟨roles, recorded, described⟩ := ih earlier
    refine ⟨_, ?_, describes_recorded described admits⟩
    rw [List.foldlM_append, Outcome.bind_eq_ok]
    refine ⟨roles, recorded, ?_⟩
    rw [List.foldlM_cons, Outcome.bind_eq_ok]
    exact ⟨_, (record_eq_ok described).mpr ⟨admits, rfl⟩, rfl⟩

theorem mem_withRole {p : Role → Bool} {table : SymbolTable} {tensor : TensorId} :
    tensor ∈ table.withRole p ↔ ∃ role, table.roles.get? tensor = some role ∧ p role = true := by
  simp only [withRole, List.mem_map, List.mem_filter, Prod.exists, exists_and_right, exists_eq_right,
    IntMap.mem_entries]

theorem withRole_ascending (p : Role → Bool) (table : SymbolTable) :
    (table.withRole p).Pairwise (· < ·) :=
  List.pairwise_map.mpr (table.roles.ascending.filter _)

theorem mem_inputs {table : SymbolTable} {ops : List Operation} (described : Describes table.roles ops)
    {tensor : TensorId} :
    tensor ∈ table.inputs ↔ tensor ∈ consumed ops ∧ tensor ∉ produced ops := by
  rw [inputs, mem_withRole, described tensor, roleAmong]
  by_cases made : tensor ∈ produced ops <;> by_cases used : tensor ∈ consumed ops <;> simp [made, used]

theorem mem_outputs {table : SymbolTable} {ops : List Operation} (described : Describes table.roles ops)
    {tensor : TensorId} :
    tensor ∈ table.outputs ↔ tensor ∈ produced ops ∧ tensor ∉ consumed ops := by
  rw [outputs, mem_withRole, described tensor, roleAmong]
  by_cases made : tensor ∈ produced ops <;> by_cases used : tensor ∈ consumed ops <;> simp [made, used]

theorem mentioned_of_contains {table : SymbolTable} {ops : List Operation}
    (described : Describes table.roles ops) {tensor : TensorId} (known : table.contains tensor = true) :
    tensor ∈ consumed ops ++ produced ops := by
  rw [contains, IntMap.contains, described tensor] at known
  by_contra missing
  rw [List.mem_append, not_or] at missing
  rw [roleAmong_eq_none.mpr missing] at known
  cases known

/-- The tensors of the last operation are outputs, so only a program without
operations has none. -/
theorem outputs_eq_nil {table : SymbolTable} {ops : List Operation} (single : SingleAssignment ops)
    (described : Describes table.roles ops) : table.outputs = [] ↔ ops = [] := by
  constructor
  · intro none
    rcases List.eq_nil_or_concat' ops with rfl | ⟨before, last, rfl⟩
    · rfl
    · obtain ⟨-, admits⟩ := SingleAssignment.snoc_iff.mp single
      obtain ⟨tensor, member⟩ := List.exists_mem_of_ne_nil _ (Operation.outputs_ne_nil admits.known)
      have output : tensor ∈ table.outputs := by
        rw [mem_outputs described]
        simp [member, admits.unused tensor member, admits.unconsumed tensor member]
      rw [none] at output
      cases output
  · rintro rfl
    apply List.eq_nil_iff_forall_not_mem.mpr
    intro tensor member
    have := (mem_outputs described).mp member
    simp [produced] at this

theorem ofProgram_eq_ok {p : Program} {table : SymbolTable} :
    ofProgram p = .ok table ↔
      p.operations ≠ [] ∧ SingleAssignment p.operations ∧ Describes table.roles p.operations := by
  rw [ofProgram, Outcome.bind_eq_ok]
  constructor
  · rintro ⟨roles, recorded, checked⟩
    obtain ⟨single, described⟩ := recorded_of_ok recorded
    dsimp only at checked
    split at checked
    · cases checked
    · rename_i some
      cases checked
      exact ⟨fun empty => some ((@outputs_eq_nil ⟨roles⟩ _ single described).mpr empty), single, described⟩
  · rintro ⟨nonempty, single, described⟩
    obtain ⟨roles, recorded, described'⟩ := recorded_of_singleAssignment single
    have same : table = ⟨roles⟩ := by
      cases table
      congr
      exact IntMap.ext_get? fun tensor => (described tensor).trans (described' tensor).symm
    have some : table.outputs ≠ [] := fun empty => nonempty ((outputs_eq_nil single described).mp empty)
    refine ⟨roles, recorded, ?_⟩
    rw [← same, if_neg some]

theorem ofProgram_empty {p : Program} (empty : p.operations = []) : ofProgram p = .error .noOutput := by
  rw [ofProgram, empty]
  rfl

theorem ofProgram_accepts {p : Program} (nonempty : p.operations ≠ [])
    (single : SingleAssignment p.operations) : ∃ table, ofProgram p = .ok table := by
  obtain ⟨roles, -, described⟩ := recorded_of_singleAssignment single
  exact ⟨⟨roles⟩, ofProgram_eq_ok.mpr ⟨nonempty, single, described⟩⟩

end SymbolTable

/-- An operation uses inputs of the program or what was produced before it. -/
theorem input_or_produced {p : Program} {roles : SymbolTable} (accepted : SymbolTable.ofProgram p = .ok roles)
    {before after : List Operation} {op : Operation} (split : p.operations = before ++ op :: after)
    {tensor : TensorId} (used : tensor ∈ op.inputs) : tensor ∈ roles.inputs ∨ tensor ∈ produced before := by
  obtain ⟨-, single, described⟩ := SymbolTable.ofProgram_eq_ok.mp accepted
  by_cases made : tensor ∈ produced p.operations
  · rw [split] at single made
    exact .inr (single.produced_before used made)
  · have member : op ∈ p.operations := by simp [split]
    exact .inl ((SymbolTable.mem_inputs described).mpr ⟨List.mem_flatMap_of_mem member used, made⟩)

end TensorNetwork
