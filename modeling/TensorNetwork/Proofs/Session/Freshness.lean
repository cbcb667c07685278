import TensorNetwork.Proofs.Roles
import TensorNetwork.Proofs.Session.Effect

/-! The tensors that a session allocates when its program is also changed behind its
back. They come after all that is registered and all that is produced, but not after
what operations that were appended directly merely use. Such a use is the only way in
which the program of a session stops being accepted. -/
namespace TensorNetwork

namespace SymbolTable

/-- Operations of known kinds are refused for what they produce, or not at all. -/
theorem ofProgram_duplicate {p : Program} (nonempty : p.operations ≠ [])
    (known : ∀ op ∈ p.operations, op.Known) :
    (∃ e, ofProgram p = .error e ∧ e.kind = .duplicateOutput) ↔ ¬ SingleAssignment p.operations := by
  constructor
  · rintro ⟨e, refused, -⟩ single
    obtain ⟨table, accepted⟩ := ofProgram_accepts nonempty single
    rw [accepted] at refused
    cases refused
  · intro repeated
    cases recorded : p.operations.foldlM record .empty with
    | ok roles => exact absurd (recorded_of_ok recorded).1 repeated
    | error e =>
      refine ⟨e, by rw [ofProgram, recorded]; rfl, ?_⟩
      obtain ⟨roles, op, member, failed⟩ := Outcome.foldlM_error recorded
      rw [record_known (known op member)] at failed
      obtain ⟨roles', tensor, -, duplicate⟩ := Outcome.foldlM_error failed
      exact define_error duplicate

end SymbolTable

namespace Session
variable {s next : Session} {tensors : List TensorId}

theorem Bounded.commitAll (bounded : s.Bounded) (planned : List Planned) : (s.commitAll planned).Bounded := by
  induction planned generalizing s with
  | nil => exact bounded
  | cons first rest ih => exact ih (bounded.commit first)

/-- Ranks are registered without regard to the count. -/
theorem commitAll_ranks {t : Session} (same : s.ranks = t.ranks) (planned : List Planned) :
    (s.commitAll planned).ranks = (t.commitAll planned).ranks := by
  have registered : ∀ (entries : List (TensorId × Nat)) (s t : Session), s.ranks = t.ranks →
      (entries.foldl (fun s entry => s.register entry.1 entry.2) s).ranks =
        (entries.foldl (fun s entry => s.register entry.1 entry.2) t).ranks := by
    intro entries
    induction entries with
    | nil => exact fun _ _ same => same
    | cons entry rest ih => exact fun s t same => ih _ _ (congrArg (IntMap.insert · entry.1 entry.2) same)
  induction planned generalizing s t with
  | nil => exact same
  | cons first rest ih => exact ih (registered _ s t same)

theorem commitAll_ranks_caughtUp (s : Session) (planned : List Planned) :
    (s.commitAll planned).ranks = (s.caughtUp.commitAll planned).ranks := by
  have same : s.ranks = s.caughtUp.ranks := rfl
  exact commitAll_ranks same planned

theorem FitAll.contains {planned : List Planned} (fit : s.FitAll planned) (tensor : TensorId) :
    (s.commitAll planned).ranks.contains tensor = true ↔
      tensor ∈ (planned.flatMap fun p => p.op.outputs) ∨ s.ranks.contains tensor = true := by
  induction planned generalizing s with
  | nil => simp [commitAll]
  | cons first rest ih =>
    rw [commitAll_cons, ih fit.2, fit.1.commit_contains, List.flatMap_cons, List.mem_append]
    tauto

/-- What is committed uses tensors that are registered by then. -/
theorem FitAll.inputs_registered {planned : List Planned} (fit : s.FitAll planned) {p : Planned}
    (member : p ∈ planned) {tensor : TensorId} (input : tensor ∈ p.op.inputs) :
    (s.commitAll planned).ranks.contains tensor = true := by
  induction planned generalizing s with
  | nil => cases member
  | cons first rest ih =>
    rcases List.mem_cons.mp member with rfl | later
    · exact (fit.contains tensor).mpr (.inr (fit.1.input_registered input))
    · exact ih fit.2 later

theorem FitAll.known {planned : List Planned} (fit : s.FitAll planned) : ∀ p ∈ planned, p.op.Known := by
  induction planned generalizing s with
  | nil => simp
  | cons first rest ih => exact List.forall_mem_cons.mpr ⟨fit.1.known, ih fit.2⟩

/-- Fitting operations may follow others unless these use what they produce. -/
theorem FitAll.follow {planned : List Planned} {ops : List Operation} (fit : s.FitAll planned) (bounded : s.Bounded)
    (single : SingleAssignment ops) (below : ∀ tensor ∈ produced ops, tensor < s.count)
    (unused : ∀ tensor ∈ (planned.flatMap fun p => p.op.outputs), tensor ∉ consumed ops) :
    SingleAssignment (ops ++ planned.map Planned.op) := by
  induction planned generalizing s ops with
  | nil => simpa using single
  | cons first rest ih =>
    have new : ∀ tensor ∈ first.op.outputs, s.count ≤ tensor ∧ tensor < s.count + first.ranks.length := by
      intro tensor output
      exact mem_consecutive.mp (fit.1.outputs ▸ output)
    have old : ∀ tensor ∈ first.op.inputs, tensor < s.count :=
      fun tensor input => bounded tensor (fit.1.input_registered input)
    have admits : Admits ops first.op := by
      refine ⟨fit.1.known, ?_, fun tensor output input => ?_, fun tensor output => ?_, fun tensor output made => ?_⟩
      · rw [fit.1.outputs]
        exact (consecutive_ascending _ _).imp fun below => Int.ne_of_lt below
      · have := new tensor output
        have := old tensor input
        lia
      · exact unused tensor (by simp [output])
      · have := new tensor output
        have := below tensor made
        lia
    obtain ⟨n, outputs, -⟩ := fit.2.outputs
    have regrouped : ops ++ (first :: rest).map Planned.op = (ops ++ [first.op]) ++ rest.map Planned.op := by simp
    rw [regrouped]
    refine ih fit.2 (bounded.commit first) (SingleAssignment.snoc_iff.mpr ⟨single, admits⟩) ?_ ?_
    · intro tensor made
      rw [fit.1.commit_count]
      rcases List.mem_append.mp (produced_snoc _ _ ▸ made) with earlier | here
      · have := below tensor earlier
        lia
      · exact (new tensor here).2
    · intro tensor output used
      rcases List.mem_append.mp (consumed_snoc _ _ ▸ used) with earlier | here
      · exact unused tensor (by simp only [List.flatMap_cons, List.mem_append, output, or_true]) earlier
      · rw [outputs, mem_consecutive, fit.1.commit_count] at output
        have := old tensor here
        lia

/-- Conversely, what the operations before them use is not produced again. -/
theorem not_consumed_before {ops added : List Operation} (single : SingleAssignment (ops ++ added))
    {tensor : TensorId} (made : tensor ∈ produced added) : tensor ∉ consumed ops := by
  obtain ⟨op, member, output⟩ := mem_produced.mp made
  obtain ⟨before, after, rfl⟩ := List.append_of_mem member
  have admits := single (ops ++ before) op after (by simp)
  intro used
  exact admits.unconsumed tensor output (by simpa [consumed] using .inl (by simpa [consumed] using used))

/-- The tensors that a session allocates follow one another. -/
theorem Advance.consecutive (advance : s.Advance next tensors) : ∃ n, tensors = consecutive s.nextTensor n := by
  cases advance with
  | idle code => exact ⟨0, rfl⟩
  | registered rank => exact ⟨1, rfl⟩
  | committed planned fit =>
    obtain ⟨n, outputs, -⟩ := fit.outputs
    exact ⟨n, outputs⟩

theorem Advance.bounded (advance : s.Advance next tensors) (bounded : s.Bounded) : next.Bounded := by
  cases advance with
  | idle code => exact bounded
  | registered rank =>
    intro tensor registered
    have counted := s.le_nextTensor.1
    have below : tensor < s.nextTensor + 1 := by
      rcases (contains_insert s.ranks s.nextTensor tensor rank).mp registered with rfl | old
      · lia
      · have := bounded tensor old
        lia
    exact below
  | committed planned fit => exact bounded.commitAll planned

/-- What a session registers stays registered. -/
theorem Advance.keeps (advance : s.Advance next tensors) {tensor : TensorId}
    (registered : s.ranks.contains tensor = true) : next.ranks.contains tensor = true := by
  cases advance with
  | idle code => exact registered
  | registered rank => exact (contains_insert s.ranks s.nextTensor tensor rank).mpr (.inr registered)
  | committed planned fit =>
    rw [commitAll_ranks_caughtUp]
    exact (fit.contains tensor).mpr (.inr registered)

/-- Operations that a session appends use registered tensors and produce new ones. They
may follow the program unless it uses one of these. -/
structure Appends (s next : Session) (tensors : List TensorId) (added : List Operation) : Prop where
  operations : next.program.operations = s.program.operations ++ added
  known : ∀ op ∈ added, op.Known
  inputs : ∀ op ∈ added, ∀ tensor ∈ op.inputs, next.ranks.contains tensor = true
  outputs : ∀ tensor ∈ produced added, tensor ∈ tensors
  follow : SingleAssignment s.program.operations →
    (SingleAssignment (s.program.operations ++ added) ↔
      ∀ tensor ∈ produced added, tensor ∉ consumed s.program.operations)

theorem appends_nothing (same : next.program = s.program) : Appends s next tensors [] where
  operations := by simp [same]
  known := by simp
  inputs := by simp
  outputs := by simp [produced]
  follow single := by simp [produced, single]

theorem Advance.appends (advance : s.Advance next tensors) (bounded : s.Bounded) :
    ∃ added, Appends s next tensors added := by
  cases advance with
  | idle code => exact ⟨[], appends_nothing rfl⟩
  | registered rank => exact ⟨[], appends_nothing rfl⟩
  | committed planned fit =>
    obtain ⟨ranks, count, committed⟩ := commitAll_frame planned s
    have outputs : produced (planned.map Planned.op) = planned.flatMap fun p => p.op.outputs := by
      rw [produced, List.flatMap_map]
    refine ⟨planned.map Planned.op, by rw [committed], ?_, ?_, ?_, fun single => ⟨?_, fun unused => ?_⟩⟩
    · exact List.forall_mem_map.mpr fit.known
    · refine List.forall_mem_map.mpr fun p member tensor input => ?_
      rw [commitAll_ranks_caughtUp]
      exact fit.inputs_registered member input
    · rw [outputs]
      exact fun tensor made => made
    · exact fun together tensor made => not_consumed_before together made
    · rw [outputs] at unused
      exact fit.follow bounded.caughtUp single s.le_nextTensor.2 unused

/-- What is known of a session after any requests: the operations that it appended
itself use tensors that it registered. -/
structure Traced (requests : List Request) (s : Session) : Prop where
  bounded : s.Bounded
  inputs : ∀ op ∈ s.program.operations, Request.append (.operation op) ∈ requests ∨
    ∀ tensor ∈ op.inputs, s.ranks.contains tensor = true

theorem start_traced (name : String) : Traced [] (start name) :=
  ⟨(start_sound name).bounded, fun op member => by cases member⟩

theorem Traced.after {requests : List Request} (traced : Traced requests s) (request : Request) :
    Traced (requests ++ [request]) (s.after request) := by
  have longer : ∀ {op}, Request.append (.operation op) ∈ requests →
      Request.append (.operation op) ∈ requests ++ [request] := List.mem_append_left _
  by_cases restarted : request = .reset
  · subst restarted
    exact ⟨(start_sound s.name).bounded, fun op member => by cases member⟩
  by_cases indirect : request.isDirect = false
  · have advance := after_advance traced.bounded indirect restarted
    obtain ⟨added, appends⟩ := advance.appends traced.bounded
    refine ⟨advance.bounded traced.bounded, fun op member => ?_⟩
    rw [appends.operations] at member
    rcases List.mem_append.mp member with old | new
    · exact (traced.inputs op old).imp longer fun registered tensor input => advance.keeps (registered tensor input)
    · exact .inr (appends.inputs op new)
  · cases request with
    | append candidate =>
      cases candidate with
      | operation op =>
        refine ⟨traced.bounded, fun o member => ?_⟩
        rcases List.mem_append.mp member with old | new
        · exact (traced.inputs o old).imp_left longer
        · rw [List.mem_singleton.mp new]
          exact .inl (List.mem_append_right _ List.mem_cons_self)
      | datum value => exact ⟨traced.bounded, fun op member => (traced.inputs op member).imp_left longer⟩
    | _ => exact absurd rfl indirect

theorem run_traced (name : String) (requests : List Request) : Traced requests ((start name).run requests) := by
  induction requests using List.reverseRecOn with
  | nil => exact start_traced name
  | append_singleton before request ih =>
    rw [run, List.foldl_append]
    exact ih.after request

theorem allocated_consecutive (bounded : s.Bounded) (request : Request) :
    ∃ n, s.allocated request = consecutive s.nextTensor n := by
  by_cases restarted : request = .reset
  · subst restarted
    exact ⟨0, rfl⟩
  by_cases indirect : request.isDirect = false
  · exact (after_advance bounded indirect restarted).consecutive
  · cases request with
    | append candidate =>
      cases candidate with
      | operation op => exact ⟨0, rfl⟩
      | datum value => exact ⟨0, rfl⟩
    | _ => exact absurd rfl indirect

theorem Bounded.allocated_new (bounded : s.Bounded) {request : Request} {tensor : TensorId}
    (allocated : tensor ∈ s.allocated request) :
    s.ranks.contains tensor ≠ true ∧ tensor ∉ produced s.program.operations := by
  obtain ⟨n, row⟩ := allocated_consecutive bounded request
  have new : s.nextTensor ≤ tensor := (mem_consecutive.mp (row ▸ allocated)).1
  obtain ⟨counted, below⟩ := s.le_nextTensor
  constructor
  · intro registered
    have := bounded tensor registered
    lia
  · intro made
    have := below tensor made
    lia

/-- Every tensor that the program uses is registered or produced. -/
def Accounted (s : Session) : Prop :=
  ∀ tensor ∈ consumed s.program.operations,
    tensor ∈ s.ranks.keys ∨ tensor ∈ produced s.program.operations

theorem Accounted.allocated_unused (accounted : s.Accounted) (bounded : s.Bounded) {request : Request}
    {tensor : TensorId} (allocated : tensor ∈ s.allocated request) : tensor ∉ consumed s.program.operations := by
  intro used
  obtain ⟨unregistered, unproduced⟩ := bounded.allocated_new allocated
  rcases accounted tensor used with registered | made
  · exact unregistered (IntMap.mem_keys.mp registered)
  · exact unproduced made

section
variable {added : List Operation} {roles : SymbolTable}

theorem Appends.duplicate_iff (appends : Appends s next tensors added)
    (accepted : SymbolTable.ofProgram s.program = .ok roles) :
    (∃ e, SymbolTable.ofProgram next.program = .error e ∧ e.kind = .duplicateOutput) ↔
      ∃ tensor ∈ produced added, tensor ∈ consumed s.program.operations := by
  obtain ⟨nonempty, single, -⟩ := SymbolTable.ofProgram_eq_ok.mp accepted
  have filled : next.program.operations ≠ [] := by simp [appends.operations, nonempty]
  have known : ∀ op ∈ next.program.operations, op.Known := by
    rw [appends.operations]
    exact List.forall_mem_append.mpr ⟨single.known, appends.known⟩
  rw [SymbolTable.ofProgram_duplicate filled known, appends.operations, appends.follow single]
  simp only [not_forall, not_not, exists_prop]

theorem Appends.accepted (appends : Appends s next tensors added)
    (accepted : SymbolTable.ofProgram s.program = .ok roles)
    (unused : ∀ tensor ∈ produced added, tensor ∉ consumed s.program.operations) :
    ∃ roles', SymbolTable.ofProgram next.program = .ok roles' := by
  obtain ⟨nonempty, single, -⟩ := SymbolTable.ofProgram_eq_ok.mp accepted
  have filled : next.program.operations ≠ [] := by simp [appends.operations, nonempty]
  apply SymbolTable.ofProgram_accepts filled
  rw [appends.operations, appends.follow single]
  exact unused

end

/-- Whatever is asked of a session and appended directly, it allocates tensors in a row that
are neither registered nor produced. Only operations appended directly can use them
already, and only if they do can the program of the session cease to be accepted. -/
theorem run_allocates_unproduced (name : String) (requests : List Request) (request : Request) :
    let s := (start name).run requests
    (∃ n, s.allocated request = consecutive s.nextTensor n) ∧
    (∀ tensor ∈ s.allocated request, tensor ∉ s.ranks.keys ∧
      ∀ op ∈ s.program.operations, tensor ∉ op.outputs ∧
        (tensor ∈ op.inputs → Request.append (.operation op) ∈ requests)) ∧
    (s.Accounted → ∀ tensor ∈ s.allocated request, ∀ op ∈ s.program.operations,
      tensor ∉ op.inputs ++ op.outputs) ∧
    (request.isDirect = false → request ≠ .reset → ∀ roles, SymbolTable.ofProgram s.program = .ok roles →
      ∃ added, (s.after request).program.operations = s.program.operations ++ added ∧
        (∀ tensor ∈ produced added, tensor ∈ s.allocated request) ∧
        ((∃ e, SymbolTable.ofProgram (s.after request).program = .error e ∧ e.kind = .duplicateOutput) ↔
          ∃ tensor ∈ produced added, tensor ∈ consumed s.program.operations) ∧
        (s.Accounted → ∃ roles', SymbolTable.ofProgram (s.after request).program = .ok roles')) := by
  intro s
  have traced : Traced requests s := run_traced name requests
  refine ⟨allocated_consecutive traced.bounded request, fun tensor allocated => ?_,
    fun accounted tensor allocated op member occurs => ?_, fun indirect continued roles accepted => ?_⟩
  · obtain ⟨unregistered, unproduced⟩ := traced.bounded.allocated_new allocated
    refine ⟨fun registered => unregistered (IntMap.mem_keys.mp registered), fun op member => ⟨?_, fun input => ?_⟩⟩
    · exact fun output => unproduced (mem_produced.mpr ⟨op, member, output⟩)
    · exact (traced.inputs op member).resolve_right fun registered => unregistered (registered tensor input)
  · rcases List.mem_append.mp (mentioned_of_mem member occurs) with used | made
    · exact accounted.allocated_unused traced.bounded allocated used
    · exact (traced.bounded.allocated_new allocated).2 made
  · have advance := after_advance traced.bounded indirect continued
    obtain ⟨added, appends⟩ := advance.appends traced.bounded
    refine ⟨added, appends.operations, appends.outputs, appends.duplicate_iff accepted, fun accounted => ?_⟩
    apply appends.accepted accepted
    intro tensor made
    exact accounted.allocated_unused traced.bounded (appends.outputs tensor made)

/-- An operation that is appended directly uses a tensor of the session and produces one
that lies further on. -/
theorem run_allocates_unproduced_beyond :
    let s := (start "f").run [.addTensor 2, .append (.operation (.transposition ⟨0, [1, 0], 5, by decide⟩))]
    s.Accounted ∧ s.allocated (.transpose 0 [1, 0]) = [6] ∧
      (∀ op ∈ s.program.operations, (6 : TensorId) ∉ op.inputs ++ op.outputs) ∧
      ∃ roles, SymbolTable.ofProgram (s.after (.transpose 0 [1, 0])).program = .ok roles := by
  intro s
  have accounted : s.Accounted := by
    unfold Accounted
    decide
  have allocated : s.allocated (.transpose 0 [1, 0]) = [6] := rfl
  obtain ⟨-, -, unmentioned, stays⟩ := run_allocates_unproduced "f"
    [.addTensor 2, .append (.operation (.transposition ⟨0, [1, 0], 5, by decide⟩))] (.transpose 0 [1, 0])
  refine ⟨accounted, allocated, unmentioned accounted 6 (by rw [allocated]; exact List.mem_cons_self), ?_⟩
  obtain ⟨added, -, -, -, accepted⟩ := stays rfl nofun ⟨.ofList [(0, ⟨true, false⟩), (5, ⟨false, true⟩)]⟩ rfl
  exact accepted accounted

/-- An operation that is appended directly uses the very tensor that comes next. -/
theorem allocated_is_consumed :
    let s := (start "f").run [.addTensor 2, .append (.operation (.transposition ⟨2, [1, 0], 1, by decide⟩))]
    s.allocated (.transpose 0 [1, 0]) = [2] ∧ (2 : TensorId) ∈ consumed s.program.operations ∧
      (∃ roles, SymbolTable.ofProgram s.program = .ok roles) ∧
      ∃ e, SymbolTable.ofProgram (s.after (.transpose 0 [1, 0])).program = .error e ∧
        e.kind = .duplicateOutput :=
  ⟨rfl, by decide, ⟨_, rfl⟩, _, rfl, rfl⟩

end Session
end TensorNetwork
