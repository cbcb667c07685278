import TensorNetwork.Proofs.Operation.Equivalence
import TensorNetwork.Proofs.Session.Serve

/-! What a request does to a session that may have come about in any way, also by
appending to its program behind its back. A request that succeeds registers one
tensor, commits what it planned, or replaces the source text or the program. -/
namespace TensorNetwork.Session

/-- Registering tensors touches nothing but the ranks and the count. -/
theorem registers_frame (entries : List (TensorId × Nat)) (s : Session) :
    ∃ ranks count, entries.foldl (fun s entry => s.register entry.1 entry.2) s = { s with ranks, count } := by
  induction entries generalizing s with
  | nil => exact ⟨s.ranks, s.count, rfl⟩
  | cons entry rest ih => exact ih (s.register entry.1 entry.2)

/-- Commits append their operations in order. -/
theorem commitAll_frame (planned : List Planned) (s : Session) :
    ∃ ranks count, s.commitAll planned =
      { s with ranks, count, program := ⟨s.program.operations ++ planned.map Planned.op⟩ } := by
  induction planned generalizing s with
  | nil => exact ⟨s.ranks, s.count, by simp [commitAll]⟩
  | cons first rest ih =>
    obtain ⟨ranks, count, registered⟩ := registers_frame (first.op.outputs.zip first.ranks) s
    obtain ⟨ranks', count', committed⟩ := ih (s.commit first)
    refine ⟨ranks', count', ?_⟩
    rw [commitAll, List.foldl_cons]
    rw [commitAll] at committed
    rw [committed, commit, registered]
    simp [Program.push]

theorem planOperands_tensors {s : Session} {subscripts : IntMap (List Label)} {group : List TensorId}
    {operands : List Operand} (found : group.mapM (s.planOperand subscripts) = .ok operands) :
    operands.map Operand.tensor = group := by
  have each : List.Forall₂ (fun tensor operand => tensor = operand.tensor) group operands :=
    (Outcome.mapM_eq_ok.mp found).imp fun tensor operand planned => (planOperand_eq_ok planned).1.symm
  have same : List.Forall₂ Eq group (operands.map Operand.tensor) := List.forall₂_map_right_iff.mpr each
  rw [List.forall₂_eq_eq_eq] at same
  exact same.symm

/-- What is planned for a group contracts all of it. -/
theorem planGroup_contraction {s : Session} {subscripts : IntMap (List Label)} {group : List TensorId}
    {output : TensorId} {planned : Planned} (plan : s.planGroup subscripts group output = .ok planned) :
    ∃ c : Contraction, planned.op = .contraction c ∧ c.inputs = group := by
  rw [planGroup, Outcome.bind_eq_ok] at plan
  obtain ⟨operands, found, plan⟩ := plan
  obtain ⟨c, built, plan⟩ := Outcome.bind_eq_ok.mp plan
  obtain ⟨d, renamed, done⟩ := Outcome.bind_eq_ok.mp plan
  cases done
  refine ⟨d, rfl, ?_⟩
  rw [Contraction.canonical_inputs renamed, Contraction.inputs, (Contraction.ofOperands_eq_ok built).1]
  exact planOperands_tensors found

theorem planGroups_contractions {s : Session} {subscripts : IntMap (List Label)} {groups : List (List TensorId)}
    {output : TensorId} {planned : List Planned} (plan : s.planGroups subscripts groups output = .ok planned) :
    ∃ cs : List Contraction, planned.map Planned.op = cs.map .contraction ∧
      cs.map Contraction.inputs = groups := by
  induction groups generalizing output planned with
  | nil =>
    cases plan
    exact ⟨[], rfl, rfl⟩
  | cons group rest ih =>
    rw [planGroups, Outcome.bind_eq_ok] at plan
    obtain ⟨first, one, plan⟩ := plan
    obtain ⟨others, more, done⟩ := Outcome.bind_eq_ok.mp plan
    cases done
    obtain ⟨c, contraction, inputs⟩ := planGroup_contraction one
    obtain ⟨cs, contractions, all⟩ := ih more
    exact ⟨c :: cs, by simp [contraction, contractions], by simp [inputs, all]⟩

/-- A contraction that succeeds contracts every merged group. -/
theorem contract_appends {s next : Session} {groups : List (List TensorId)} {subscripts : IntMap (List Label)}
    {tensors : List TensorId} {events : List Event}
    (served : s.contract groups subscripts = .ok (tensors, next, events)) :
    ∃ cs : List Contraction, next.program.operations = s.program.operations ++ cs.map .contraction ∧
      cs.map Contraction.inputs = Grouping.mergeOverlapping groups := by
  rw [contract, Outcome.bind_eq_ok] at served
  obtain ⟨planned, plan, done⟩ := served
  cases done
  obtain ⟨ranks, count, committed⟩ := commitAll_frame planned s
  obtain ⟨cs, contractions, inputs⟩ := planGroups_contractions plan
  exact ⟨cs, by rw [committed, contractions], inputs⟩

/-- A split that leaves no axis on one side is refused, whatever the permutation. -/
theorem split_refused {s : Session} {tensor : TensorId} {rank : Nat} {left : Int}
    (known : s.ranks.get? tensor = some rank) (outside : left < 1 ∨ (rank : Int) ≤ left) (permutation : List Int) :
    ∃ e, s.split tensor permutation left = .error e := by
  have refused : ∀ (input next : TensorId) (result : Split × Planned),
      planSplit input rank left next ≠ .ok result := by
    intro input next result plan
    rw [planSplit, Outcome.bind_eq_ok] at plan
    obtain ⟨split, made, -⟩ := plan
    obtain ⟨-, ranked, divided, -, -⟩ := Split.make_eq_ok made
    have low := split.left_pos
    have high := split.left_lt
    omega
  cases served : s.split tensor permutation left with
  | error e => exact ⟨e, rfl⟩
  | ok result =>
    rw [Session.split, rank_eq_ok.mpr known, Outcome.bind_eq_ok] at served
    obtain ⟨_, same, served⟩ := served
    cases same
    obtain ⟨_, -, served⟩ := Outcome.bind_eq_ok.mp served
    dsimp only at served
    split at served
    · obtain ⟨both, plan, -⟩ := Outcome.bind_eq_ok.mp served
      exact absurd plan (refused _ _ both)
    · obtain ⟨t, -, served⟩ := Outcome.bind_eq_ok.mp served
      obtain ⟨both, plan, -⟩ := Outcome.bind_eq_ok.mp served
      exact absurd plan (refused _ _ both)

/-- What a request does to a session when it succeeds, however the session came
about. Requests that only look something up commit nothing. -/
inductive Effect (s : Session) : Request → Answer → Session → Prop where
  | registered (rank : Int) :
      Effect s (.addTensor rank) (.tensor s.nextTensor)
        { s with ranks := s.ranks.insert s.nextTensor rank.toNat, count := s.nextTensor + 1 }
  | committed {request : Request} {answer : Answer} (planned : List Planned)
      (ungenerated : request ≠ .regenerate) (continued : request ≠ .reset) :
      Effect s request answer (s.commitAll planned)
  | generated (code : String) : Effect s .regenerate (.code (some code)) { s with code := some code }
  | restarted : Effect s .reset .done s.reset
  | appended (candidate : Candidate) (program : Program) :
      Effect s (.append candidate) .done { s with program }

theorem split_committed {s next : Session} {tensor : TensorId} {permutation : List Int} {left : Int}
    {factors : TensorId × TensorId} {events : List Event}
    (served : s.split tensor permutation left = .ok (factors, next, events)) :
    ∃ planned, next = s.commitAll planned := by
  rw [Session.split, Outcome.bind_eq_ok] at served
  obtain ⟨rank, -, served⟩ := served
  obtain ⟨_, -, served⟩ := Outcome.bind_eq_ok.mp served
  dsimp only at served
  split at served
  · obtain ⟨⟨split, planned⟩, -, done⟩ := Outcome.bind_eq_ok.mp served
    cases done
    exact ⟨[planned], rfl⟩
  · obtain ⟨t, -, served⟩ := Outcome.bind_eq_ok.mp served
    obtain ⟨⟨split, planned⟩, -, done⟩ := Outcome.bind_eq_ok.mp served
    cases done
    exact ⟨_, rfl⟩

theorem transpose_committed {s next : Session} {tensor output : TensorId} {permutation : List Int}
    {events : List Event} (served : s.transpose tensor permutation = .ok (output, next, events)) :
    ∃ planned, next = s.commitAll planned := by
  rw [transpose, Outcome.bind_eq_ok] at served
  obtain ⟨_, -, served⟩ := served
  split at served
  · cases served
    exact ⟨[], rfl⟩
  · obtain ⟨t, -, done⟩ := Outcome.bind_eq_ok.mp served
    cases done
    exact ⟨[_], rfl⟩

theorem serve_effect {s next : Session} {request : Request} {answer : Answer} {events : List Event}
    (served : s.serve request = .ok (answer, next, events)) : s.Effect request answer next := by
  cases request with
  | addTensor rank =>
    obtain ⟨⟨tensor, after⟩, added, done⟩ := Outcome.map_eq_ok.mp served
    cases done
    unfold addTensor at added
    split at added
    · cases added
    · cases added
      exact .registered rank
  | contract groups subscripts =>
    obtain ⟨⟨tensors, after, log⟩, contracted, done⟩ := Outcome.map_eq_ok.mp served
    cases done
    obtain ⟨planned, -, done⟩ := Outcome.bind_eq_ok.mp contracted
    cases done
    exact .committed planned nofun nofun
  | transpose tensor permutation =>
    obtain ⟨⟨output, after, log⟩, transposed, done⟩ := Outcome.map_eq_ok.mp served
    cases done
    obtain ⟨planned, rfl⟩ := transpose_committed transposed
    exact .committed planned nofun nofun
  | splitInPlace tensor left =>
    obtain ⟨⟨factors, after, log⟩, divided, done⟩ := Outcome.map_eq_ok.mp served
    cases done
    obtain ⟨rank, -, divided⟩ := Outcome.bind_eq_ok.mp divided
    obtain ⟨planned, rfl⟩ := split_committed divided
    exact .committed planned nofun nofun
  | split tensor permutation left =>
    obtain ⟨⟨factors, after, log⟩, divided, done⟩ := Outcome.map_eq_ok.mp served
    cases done
    obtain ⟨planned, rfl⟩ := split_committed divided
    exact .committed planned nofun nofun
  | rank tensor =>
    obtain ⟨rank, -, done⟩ := Outcome.map_eq_ok.mp served
    cases done
    exact .committed [] nofun nofun
  | regenerate =>
    obtain ⟨⟨code, after, log⟩, generated, done⟩ := Outcome.map_eq_ok.mp served
    cases done
    obtain ⟨source, -, done⟩ := Outcome.bind_eq_ok.mp generated
    cases done
    exact .generated _
  | code =>
    cases served
    exact .committed [] nofun nofun
  | reset =>
    cases served
    exact .restarted
  | append candidate =>
    obtain ⟨after, appended, done⟩ := Outcome.map_eq_ok.mp served
    cases done
    obtain ⟨program, -, done⟩ := Outcome.bind_eq_ok.mp appended
    cases done
    exact .appended candidate program

end TensorNetwork.Session
