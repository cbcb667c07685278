import TensorNetwork.Proofs.Codegen.Scaffold
import TensorNetwork.Proofs.Session.Serve

/-! Sessions allocate tensors in order and build programs that can be compiled.
Runs may hold any requests but direct appends, also requests that fail. -/
namespace TensorNetwork.Session

/-- The tensors allocated since the last reset, in order, after those allocated
earlier. -/
def ledger (s : Session) (earlier : List TensorId) : List Request → List TensorId
  | [] => earlier
  | .reset :: rest => ledger s.reset [] rest
  | request :: rest => ledger (s.after request) (earlier ++ s.allocated request) rest

/-- A ledger that lists all tensors below the count of a session. -/
def Complete (s : Session) (earlier : List TensorId) : Prop :=
  ∃ n : Nat, s.count = n ∧ earlier = consecutive 0 n

theorem Change.complete {s next : Session} {earlier tensors : List TensorId}
    (change : s.Change next tensors) (complete : s.Complete earlier) :
    next.Complete (earlier ++ tensors) := by
  obtain ⟨n, count, rfl⟩ := complete
  cases change with
  | idle code => exact ⟨n, count, List.append_nil _⟩
  | registered rank =>
    refine ⟨n + 1, by simp [count], ?_⟩
    rw [consecutive_append, count]
    simp [consecutive]
  | committed planned fit =>
    obtain ⟨m, outputs, committed⟩ := fit.outputs
    refine ⟨n + m, by rw [committed, count]; simp, ?_⟩
    rw [outputs, consecutive_append, count]
    simp

theorem ledger_complete {s : Session} {earlier : List TensorId} {requests : List Request} (sound : s.Sound)
    (complete : s.Complete earlier) (indirect : ∀ request ∈ requests, request.isDirect = false) :
    (s.run requests).Complete (s.ledger earlier requests) := by
  induction requests generalizing s earlier with
  | nil => exact complete
  | cons request rest ih =>
    have here := indirect request List.mem_cons_self
    have later : ∀ r ∈ rest, r.isDirect = false := fun r member => indirect r (List.mem_cons_of_mem _ member)
    by_cases restarted : request = .reset
    · subst restarted
      exact ih (start_sound s.name) ⟨0, rfl, rfl⟩ later
    · have change := after_change sound here restarted
      have listed : s.ledger earlier (request :: rest) =
          (s.after request).ledger (earlier ++ s.allocated request) rest := by
        cases request with
        | reset => exact absurd rfl restarted
        | _ => rfl
      rw [listed]
      exact ih (change.sound sound) (change.complete complete) later

theorem Sound.regenerate_ok {s : Session} (sound : s.Sound) (nonempty : s.program.operations ≠ []) :
    ∃ result, s.regenerate = .ok result := by
  obtain ⟨table, accepted⟩ := SymbolTable.ofProgram_accepts nonempty sound.single
  obtain ⟨parts, -, compiled⟩ := Codegen.compile_plain accepted s.name
  exact ⟨_, by rw [regenerate, compiled]; rfl⟩

theorem regenerate_empty {s : Session} (empty : s.program.operations = []) :
    s.regenerate = .error .noOutput := by
  rw [regenerate, Codegen.compile_error (SymbolTable.ofProgram_empty empty)]
  rfl

/-- Whatever is asked of a session, its program mentions only tensors that it
allocated, these come in ascending order, and the program can be compiled once it
holds an operation. -/
theorem run_assigns_once (name : String) (requests : List Request)
    (indirect : ∀ request ∈ requests, request.isDirect = false) :
    let s := (start name).run requests
    (∀ op ∈ s.program.operations, ∀ tensor ∈ op.inputs ++ op.outputs,
      tensor ∈ s.ranks.keys ∧ 0 ≤ tensor ∧ tensor < s.count) ∧
    ((start name).ledger [] requests).Pairwise (· < ·) ∧
    (∀ tensor, tensor ∈ (start name).ledger [] requests ↔ tensor ∈ s.ranks.keys) ∧
    (∀ e, SymbolTable.ofProgram s.program = .error e →
      e.kind ≠ .duplicateOutput ∧ e.kind ≠ .unsupportedOperation) ∧
    ((∃ result, s.regenerate = .ok result) ↔ s.program.operations ≠ []) ∧
    (s.program.operations = [] → s.regenerate = .error .noOutput) := by
  intro s
  have sound : s.Sound := run_sound name indirect
  obtain ⟨n, count, listed⟩ : s.Complete ((start name).ledger [] requests) :=
    ledger_complete (start_sound name) ⟨0, rfl, rfl⟩ indirect
  refine ⟨?_, ?_, ?_, ?_, ?_, regenerate_empty⟩
  · intro op member tensor occurs
    have registered := sound.mem_program member occurs
    exact ⟨IntMap.mem_keys.mpr registered, (sound.registered tensor).mp registered⟩
  · rw [listed]
    exact consecutive_ascending 0 n
  · intro tensor
    rw [listed, IntMap.mem_keys, sound.registered, mem_consecutive, count]
    simp
  · intro e refused
    by_cases empty : s.program.operations = []
    · rw [SymbolTable.ofProgram_empty empty] at refused
      cases refused
      exact ⟨nofun, nofun⟩
    · obtain ⟨table, accepted⟩ := SymbolTable.ofProgram_accepts empty sound.single
      rw [accepted] at refused
      cases refused
  · refine ⟨fun succeeds empty => ?_, sound.regenerate_ok⟩
    obtain ⟨result, generated⟩ := succeeds
    rw [regenerate_empty empty] at generated
    cases generated

/-- Two overlapping groups, a refused rank, a transposition with a split and a
refused split. -/
theorem run_assigns_once_sample :
    let requests : List Request :=
      [.addTensor 2, .addTensor 2, .addTensor (-1), .addTensor 1,
        .contract [[0, 1], [1, 2]] (.ofList [(0, [7, 8]), (1, [8, 9]), (2, [5])]),
        .split 3 [2, 0, 1] 2, .split 3 [0, 1, 2] 3]
    let s := (start "f").run requests
    s.program.length = 3 ∧ s.count = 7 ∧ ∃ result, s.regenerate = .ok result := by
  intro requests s
  refine ⟨by decide, by decide, ?_⟩
  have assigned := run_assigns_once "f" requests (by decide)
  exact assigned.2.2.2.2.1.mpr (by decide)

end TensorNetwork.Session
