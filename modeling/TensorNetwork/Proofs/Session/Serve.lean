import TensorNetwork.Proofs.Operation.Canonical
import TensorNetwork.Proofs.Session.Commit

/-! What a request does to a session, said once for every kind of request. A
session that is not reset stays as it is but for its source text, registers one
tensor, or commits operations that fit. Only the tensor to start from depends on
whether the program was changed behind the session's back. -/
namespace TensorNetwork

namespace Request

/-- Requests that append to the program behind the session's back. -/
def isDirect : Request → Bool
  | .append _ => true
  | _ => false

/-- The tensor that an answer hands out for one that nothing computes. -/
def registered : Request → Answer → List TensorId
  | .addTensor _, .tensor tensor => [tensor]
  | _, _ => []

end Request

/-- The tensors that a report says were produced. -/
def Event.outputs : Event → List TensorId
  | .appended op => op.outputs
  | _ => []

namespace Session

/-- The tensors that serving a request allocates, in order. -/
def allocated (s : Session) (request : Request) : List TensorId :=
  match s.serve request with
  | .ok (answer, _, events) => request.registered answer ++ events.flatMap Event.outputs
  | .error _ => []

/-- What becomes of a session that is not reset, and the tensors this allocates. -/
inductive Change (s : Session) : Session → List TensorId → Prop where
  | idle (code : Option String) : Change s { s with code } []
  | registered (rank : Nat) :
      Change s { s with ranks := s.ranks.insert s.count rank, count := s.count + 1 } [s.count]
  | committed (planned : List Planned) (fit : s.FitAll planned) :
      Change s (s.commitAll planned) (planned.flatMap fun p => p.op.outputs)

/-- The session with its count moved past all that its program produces. -/
def caughtUp (s : Session) : Session := { s with count := s.nextTensor }

/-- What becomes of a session whose program may produce tensors that it did not count. -/
inductive Advance (s : Session) : Session → List TensorId → Prop where
  | idle (code : Option String) : Advance s { s with code } []
  | registered (rank : Nat) :
      Advance s { s with ranks := s.ranks.insert s.nextTensor rank, count := s.nextTensor + 1 } [s.nextTensor]
  | committed (planned : List Planned) (fit : s.caughtUp.FitAll planned) :
      Advance s (s.commitAll planned) (planned.flatMap fun p => p.op.outputs)

theorem Sound.caughtUp_eq {s : Session} (sound : s.Sound) : s.caughtUp = s := by
  rw [caughtUp, sound.nextTensor]

theorem Bounded.caughtUp {s : Session} (bounded : s.Bounded) : s.caughtUp.Bounded :=
  fun tensor registered => Int.lt_of_lt_of_le (bounded tensor registered) s.le_nextTensor.1

theorem Advance.change {s next : Session} {tensors : List TensorId} (advance : s.Advance next tensors)
    (sound : s.Sound) : s.Change next tensors := by
  cases advance with
  | idle code => exact .idle code
  | registered rank =>
    rw [sound.nextTensor]
    exact .registered rank
  | committed planned fit =>
    rw [sound.caughtUp_eq] at fit
    exact .committed planned fit

theorem appendedEvents_outputs (planned : List Planned) :
    (appendedEvents planned).flatMap Event.outputs = planned.flatMap fun p => p.op.outputs := by
  rw [appendedEvents, List.flatMap_map]
  rfl

theorem rank_eq_ok {s : Session} {tensor : TensorId} {rank : Nat} :
    s.rank tensor = .ok rank ↔ s.ranks.get? tensor = some rank := by
  unfold Session.rank
  cases s.ranks.get? tensor <;> simp

theorem checkRank_eq_ok {s : Session} {tensor : TensorId} {used : Nat} {u : Unit} :
    s.checkRank tensor used = .ok u ↔ s.ranks.get? tensor = some used := by
  rw [checkRank, Outcome.bind_eq_ok]
  constructor
  · rintro ⟨rank, known, checked⟩
    split at checked
    · rename_i same
      exact same ▸ rank_eq_ok.mp known
    · cases checked
  · intro known
    exact ⟨used, rank_eq_ok.mpr known, by simp⟩

theorem planOperand_eq_ok {s : Session} {subscripts : IntMap (List Label)} {tensor : TensorId}
    {operand : Operand} (planned : s.planOperand subscripts tensor = .ok operand) :
    operand.tensor = tensor ∧ s.ranks.get? tensor = some operand.labels.length := by
  unfold planOperand at planned
  split at planned
  · cases planned
  · obtain ⟨_, checked, done⟩ := Outcome.bind_eq_ok.mp planned
    cases done
    exact ⟨rfl, checkRank_eq_ok.mp checked⟩

/-- A contraction planned in one session may be committed in a later one. It
produces one tensor. -/
theorem planGroup_fits {s later : Session} {subscripts : IntMap (List Label)} {group : List TensorId}
    {planned : Planned} (plan : s.planGroup subscripts group later.count = .ok planned)
    (keeps : ∀ tensor rank, s.ranks.get? tensor = some rank → later.ranks.get? tensor = some rank) :
    later.Fits planned ∧ planned.ranks.length = 1 := by
  rw [planGroup, Outcome.bind_eq_ok] at plan
  obtain ⟨operands, found, plan⟩ := plan
  obtain ⟨c, built, plan⟩ := Outcome.bind_eq_ok.mp plan
  obtain ⟨d, renamed, done⟩ := Outcome.bind_eq_ok.mp plan
  cases done
  obtain ⟨operandsEq, keptEq, outputEq⟩ := Contraction.ofOperands_eq_ok built
  obtain ⟨renamedOperands, renamedKept, renamedOutput, -⟩ := Contraction.canonical_eq_ok renamed
  have normal : (Operation.contraction d).normalized = .ok (.contraction d) := by
    rw [Operation.normalized, Contraction.canonical_idempotent renamed]
    rfl
  refine ⟨⟨trivial, Contraction.canonical_kept renamed, normal, ?_, ?_, ?_⟩, rfl⟩
  · intro use member
    simp only [Operation.uses, renamedOperands, operandsEq, List.map_map] at member
    obtain ⟨operand, held, rfl⟩ := List.mem_map.mp member
    obtain ⟨tensor, -, plannedOperand⟩ := Outcome.mem_of_mapM found held
    obtain ⟨rfl, rank⟩ := planOperand_eq_ok plannedOperand
    simpa [Operand.relabel] using keeps _ _ rank
  · simp [Operation.outputs, renamedOutput, outputEq, consecutive]
  · simp [Operation.outputRanks, renamedKept, keptEq]

theorem planGroups_fit {s later : Session} {subscripts : IntMap (List Label)}
    {groups : List (List TensorId)} {planned : List Planned} (bounded : later.Bounded)
    (plan : s.planGroups subscripts groups later.count = .ok planned)
    (keeps : ∀ tensor rank, s.ranks.get? tensor = some rank → later.ranks.get? tensor = some rank) :
    later.FitAll planned := by
  induction groups generalizing later planned with
  | nil =>
    cases plan
    trivial
  | cons group rest ih =>
    rw [planGroups, Outcome.bind_eq_ok] at plan
    obtain ⟨first, one, plan⟩ := plan
    obtain ⟨others, more, done⟩ := Outcome.bind_eq_ok.mp plan
    cases done
    obtain ⟨fits, single⟩ := planGroup_fits one keeps
    have count : (later.commit first).count = later.count + 1 := by
      rw [fits.commit_count, single]
      rfl
    refine ⟨fits, ih (bounded.commit first) (count ▸ more) fun tensor rank known => ?_⟩
    exact fits.commit_keeps bounded (keeps tensor rank known)

theorem contract_advance {s : Session} {groups : List (List TensorId)} {subscripts : IntMap (List Label)}
    {tensors : List TensorId} {next : Session} {events : List Event} (bounded : s.Bounded)
    (served : s.contract groups subscripts = .ok (tensors, next, events)) :
    s.Advance next (events.flatMap Event.outputs) := by
  rw [contract, Outcome.bind_eq_ok] at served
  obtain ⟨planned, plan, done⟩ := served
  cases done
  rw [appendedEvents_outputs]
  exact .committed planned (planGroups_fit bounded.caughtUp plan fun _ _ known => known)

theorem transposition_fits {s : Session} {tensor : TensorId} {permutation : List Int} {t : Transposition}
    (built : Transposition.make tensor permutation s.count = .ok t) {rank : Nat}
    (known : s.ranks.get? tensor = some rank) (sized : permutation.length = rank) :
    s.Fits ⟨.transposition t, [rank]⟩ := by
  obtain ⟨input, order, output⟩ := Transposition.make_eq_ok built
  have ranked : t.rank = rank := by rw [Transposition.rank, order, sized]
  refine ⟨trivial, trivial, rfl, ?_, ?_, ?_⟩
  · intro use member
    simp only [Operation.uses, List.mem_singleton] at member
    simpa [member, input, ranked] using known
  · simp [Operation.outputs, output, consecutive]
  · simp [Operation.outputRanks, ranked]

theorem planSplit_fits {s : Session} {tensor : TensorId} {rank : Nat} {left : Int} {split : Split}
    {planned : Planned} (plan : planSplit tensor rank left s.count = .ok (split, planned))
    (known : s.ranks.get? tensor = some rank) : s.Fits planned := by
  rw [planSplit, Outcome.bind_eq_ok] at plan
  obtain ⟨built, made, done⟩ := plan
  cases done
  obtain ⟨input, ranked, -, q, r⟩ := Split.make_eq_ok made
  refine ⟨trivial, trivial, rfl, ?_, ?_, rfl⟩
  · intro use member
    simp only [Operation.uses, List.mem_singleton] at member
    simpa [member, input, ranked] using known
  · simp [Operation.outputs, q, r, consecutive]

theorem transpose_advance {s : Session} {tensor output : TensorId} {permutation : List Int} {next : Session}
    {events : List Event} (served : s.transpose tensor permutation = .ok (output, next, events)) :
    s.Advance next (events.flatMap Event.outputs) := by
  rw [transpose, Outcome.bind_eq_ok] at served
  obtain ⟨_, checked, served⟩ := served
  split at served
  · cases served
    exact .idle s.code
  · obtain ⟨t, built, done⟩ := Outcome.bind_eq_ok.mp served
    cases done
    obtain ⟨-, order, -⟩ := Transposition.make_eq_ok built
    have ranked : t.rank = permutation.length := by rw [Transposition.rank, order]
    have fits : s.caughtUp.Fits ⟨.transposition t, [permutation.length]⟩ :=
      transposition_fits built (checkRank_eq_ok.mp checked) rfl
    rw [appendedEvents_outputs, ranked]
    exact .committed [⟨.transposition t, [permutation.length]⟩] ⟨fits, trivial⟩

theorem split_advance {s : Session} {tensor : TensorId} {permutation : List Int} {left : Int}
    {factors : TensorId × TensorId} {next : Session} {events : List Event}
    (served : s.split tensor permutation left = .ok (factors, next, events)) :
    s.Advance next (events.flatMap Event.outputs) := by
  rw [Session.split, Outcome.bind_eq_ok] at served
  obtain ⟨rank, ranked, served⟩ := served
  obtain ⟨_, checked, served⟩ := Outcome.bind_eq_ok.mp served
  have known := rank_eq_ok.mp ranked
  have sized : permutation.length = rank := by
    simpa [known, eq_comm] using checkRank_eq_ok.mp checked
  dsimp only at served
  split at served
  · obtain ⟨⟨split, planned⟩, plan, done⟩ := Outcome.bind_eq_ok.mp served
    cases done
    rw [appendedEvents_outputs]
    have fits : s.caughtUp.Fits planned := planSplit_fits plan known
    exact .committed [planned] ⟨fits, trivial⟩
  · obtain ⟨t, built, served⟩ := Outcome.bind_eq_ok.mp served
    obtain ⟨⟨split, planned⟩, plan, done⟩ := Outcome.bind_eq_ok.mp served
    cases done
    rw [appendedEvents_outputs]
    have first : s.caughtUp.Fits ⟨.transposition t, [rank]⟩ := transposition_fits built known sized
    -- The split takes its rank from the transposition committed before it.
    have count := first.commit_count
    have output : s.nextTensor ∈ (Operation.transposition t).outputs := by
      rw [first.outputs]
      exact List.mem_cons_self
    have produced := first.commit_rank s.nextTensor
    rw [if_pos output] at produced
    have second := planSplit_fits (s := s.caughtUp.commit ⟨.transposition t, [rank]⟩) (by rw [count]; exact plan)
      (by simpa [caughtUp] using produced)
    exact .committed [⟨.transposition t, [rank]⟩, planned] ⟨first, second, trivial⟩

theorem serve_advance {s next : Session} {request : Request} {answer : Answer} {events : List Event}
    (bounded : s.Bounded) (indirect : request.isDirect = false) (continued : request ≠ .reset)
    (served : s.serve request = .ok (answer, next, events)) :
    s.Advance next (request.registered answer ++ events.flatMap Event.outputs) := by
  cases request with
  | addTensor rank =>
    obtain ⟨⟨tensor, after⟩, added, done⟩ := Outcome.map_eq_ok.mp served
    cases done
    unfold addTensor at added
    split at added
    · cases added
    · cases added
      exact .registered rank.toNat
  | contract groups subscripts =>
    obtain ⟨⟨tensors, after, log⟩, contracted, done⟩ := Outcome.map_eq_ok.mp served
    cases done
    exact contract_advance bounded contracted
  | transpose tensor permutation =>
    obtain ⟨⟨output, after, log⟩, transposed, done⟩ := Outcome.map_eq_ok.mp served
    cases done
    exact transpose_advance transposed
  | splitInPlace tensor left =>
    obtain ⟨⟨factors, after, log⟩, divided, done⟩ := Outcome.map_eq_ok.mp served
    cases done
    obtain ⟨rank, -, divided⟩ := Outcome.bind_eq_ok.mp divided
    exact split_advance divided
  | split tensor permutation left =>
    obtain ⟨⟨factors, after, log⟩, divided, done⟩ := Outcome.map_eq_ok.mp served
    cases done
    exact split_advance divided
  | rank tensor =>
    obtain ⟨rank, -, done⟩ := Outcome.map_eq_ok.mp served
    cases done
    exact .idle s.code
  | regenerate =>
    obtain ⟨⟨code, after, log⟩, generated, done⟩ := Outcome.map_eq_ok.mp served
    cases done
    obtain ⟨source, -, done⟩ := Outcome.bind_eq_ok.mp generated
    cases done
    exact .idle _
  | code =>
    cases served
    exact .idle s.code
  | reset => exact absurd rfl continued
  | append candidate => cases indirect

/-- A request that fails is one that changes nothing. -/
theorem after_advance {s : Session} {request : Request} (bounded : s.Bounded)
    (indirect : request.isDirect = false) (continued : request ≠ .reset) :
    s.Advance (s.after request) (s.allocated request) := by
  unfold Session.after allocated
  cases served : s.serve request with
  | error e => exact .idle s.code
  | ok result => exact serve_advance bounded indirect continued served

theorem after_change {s : Session} {request : Request} (sound : s.Sound)
    (indirect : request.isDirect = false) (continued : request ≠ .reset) :
    s.Change (s.after request) (s.allocated request) :=
  (after_advance sound.bounded indirect continued).change sound

theorem Change.sound {s next : Session} {tensors : List TensorId} (change : s.Change next tensors)
    (sound : s.Sound) : next.Sound := by
  cases change with
  | idle code => exact ⟨sound.count_nonneg, sound.registered, sound.consumed, sound.produced, sound.single⟩
  | registered rank =>
    have contains := fun tensor => contains_insert s.ranks s.count tensor rank
    have nonneg := sound.count_nonneg
    refine ⟨by dsimp only; lia, fun tensor => ?_, fun tensor used => ?_, fun tensor made => ?_, sound.single⟩
    · rw [contains, sound.registered]
      dsimp only
      lia
    · exact (contains tensor).mpr (.inr (sound.consumed tensor used))
    · exact (contains tensor).mpr (.inr (sound.produced tensor made))
  | committed planned fit => exact fit.sound sound

/-- What holds of new sessions and is kept by every change holds after any run
without direct appends. -/
theorem run_induction {P : Session → Prop} {s : Session} {requests : List Request}
    (fresh : ∀ name, P (start name))
    (change : ∀ {s next : Session} {tensors : List TensorId}, s.Sound → P s → s.Change next tensors → P next)
    (indirect : ∀ request ∈ requests, request.isDirect = false) (sound : s.Sound) (initial : P s) :
    (s.run requests).Sound ∧ P (s.run requests) := by
  induction requests generalizing s with
  | nil => exact ⟨sound, initial⟩
  | cons request rest ih =>
    have later : ∀ r ∈ rest, r.isDirect = false := fun r member => indirect r (List.mem_cons_of_mem _ member)
    by_cases restarted : request = .reset
    · subst restarted
      exact ih later (start_sound s.name) (fresh s.name)
    · have changed := after_change sound (indirect request List.mem_cons_self) restarted
      exact ih later (changed.sound sound) (change sound initial changed)

theorem run_sound (name : String) {requests : List Request}
    (indirect : ∀ request ∈ requests, request.isDirect = false) : ((start name).run requests).Sound :=
  (run_induction (P := fun _ => True) (fun _ => trivial) (fun _ _ _ => trivial) indirect
    (start_sound name) trivial).1

end Session
end TensorNetwork
