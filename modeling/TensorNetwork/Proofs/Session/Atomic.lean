import TensorNetwork.Proofs.Session.Effect
import TensorNetwork.Session.Edit

/-! Requests are all or nothing. Served step by step, a request comes to the same as
served at once: whatever can be refused is refused before the first assignment,
and the assignments of a commit cannot be refused. -/
namespace TensorNetwork

/-- How a desk is left by a request that was served at once. -/
def Desk.outcome {α : Type} (desk : Desk) :
    Except Error (α × Session × List Event) → EStateM.Result Error Desk α
  | .ok (a, next, events) => .ok a ⟨next, desk.reports ++ events⟩
  | .error e => .error e desk

namespace Edit
variable {α β : Type}

theorem run_bind (x : Edit α) (f : α → Edit β) (desk : Desk) :
    (x >>= f).run desk = match x.run desk with
      | .ok a next => (f a).run next
      | .error e next => .error e next := by
  simp only [EStateM.run, bind, EStateM.bind]
  cases x desk <;> rfl

theorem run_require_bind (x : Except Error α) (f : α → Edit β) (desk : Desk) :
    (require x >>= f).run desk = match x with
      | .ok a => (f a).run desk
      | .error e => .error e desk := by
  cases x <;> rfl

/-- A check passes or ends the steps, as it does at once. -/
theorem run_require_outcome {x : Except Error α} {f : α → Edit β}
    {g : α → Except Error (β × Session × List Event)} {desk : Desk}
    (onwards : ∀ a, (f a).run desk = desk.outcome (g a)) :
    (require x >>= f).run desk = desk.outcome (x >>= g) := by
  cases x with
  | error e => rfl
  | ok a => exact onwards a

theorem run_registers (entries : List (TensorId × Nat)) (desk : Desk) :
    (forM entries fun entry => register entry.1 entry.2).run desk =
      .ok () { desk with session := entries.foldl (fun s entry => s.register entry.1 entry.2) desk.session } := by
  induction entries generalizing desk with
  | nil => rfl
  | cons entry rest ih =>
    rw [List.forM_cons, run_bind]
    exact ih _

/-- A commit cannot be refused. -/
theorem run_commit (planned : Planned) (desk : Desk) :
    (commit planned).run desk =
      .ok () ⟨desk.session.commit planned, desk.reports ++ [.appended planned.op]⟩ := by
  obtain ⟨ranks, count, registered⟩ := Session.registers_frame (planned.op.outputs.zip planned.ranks) desk.session
  rw [commit, run_bind, run_registers, Session.commit, registered]
  rfl

theorem run_commits (planned : List Planned) (desk : Desk) :
    (forM planned commit).run desk =
      .ok () ⟨desk.session.commitAll planned, desk.reports ++ Session.appendedEvents planned⟩ := by
  induction planned generalizing desk with
  | nil => simp [Session.commitAll, Session.appendedEvents]
  | cons first rest ih =>
    rw [List.forM_cons, run_bind, run_commit]
    exact (ih _).trans (by simp [Session.commitAll, Session.appendedEvents])

theorem run_current (f : Session → Edit α) (desk : Desk) :
    (current >>= f).run desk = (f desk.session).run desk := rfl

theorem run_rank (tensor : TensorId) (f : Nat → Edit α) (desk : Desk) :
    (rank tensor >>= f).run desk = (require (desk.session.rank tensor) >>= f).run desk := rfl

theorem run_checkRank (tensor : TensorId) (used : Nat) (f : Unit → Edit α) (desk : Desk) :
    (checkRank tensor used >>= f).run desk = (require (desk.session.checkRank tensor used) >>= f).run desk := rfl

theorem run_planGroup (subscripts : IntMap (List Label)) (group : List TensorId) (output : TensorId)
    (desk : Desk) :
    (planGroup subscripts group output).run desk =
      (require (desk.session.planGroup subscripts group output)).run desk := rfl

/-- Planning reads the session and leaves it alone. -/
theorem run_planGroups (subscripts : IntMap (List Label)) (groups : List (List TensorId)) (output : TensorId)
    (desk : Desk) :
    (planGroups subscripts groups output).run desk =
      (require (desk.session.planGroups subscripts groups output)).run desk := by
  induction groups generalizing output with
  | nil => rfl
  | cons group rest ih =>
    rw [planGroups, run_bind, run_planGroup, Session.planGroups]
    cases desk.session.planGroup subscripts group output with
    | error e => rfl
    | ok first =>
      show (planGroups subscripts rest (output + 1) >>= fun others => pure (first :: others)).run desk = _
      rw [run_bind, ih]
      cases desk.session.planGroups subscripts rest (output + 1) <;> rfl

theorem run_addTensor (rank : Int) (desk : Desk) :
    (addTensor rank).run desk =
      desk.outcome ((desk.session.addTensor rank).map fun (tensor, s) => (tensor, s, [])) := by
  unfold addTensor Session.addTensor
  split
  · rfl
  · simp only [Except.map, Desk.outcome, List.append_nil]
    rfl

theorem run_append (candidate : Candidate) (desk : Desk) :
    (append candidate).run desk = desk.outcome ((desk.session.append candidate).map fun s => ((), s, [])) := by
  rw [append, run_current, Session.append]
  cases desk.session.program.append candidate with
  | error e => rfl
  | ok program =>
    simp only [bind, Except.bind, Except.map, Desk.outcome, List.append_nil]
    rfl

theorem run_contract (groups : List (List TensorId)) (subscripts : IntMap (List Label)) (desk : Desk) :
    (contract groups subscripts).run desk = desk.outcome (desk.session.contract groups subscripts) := by
  rw [contract, run_current, run_bind, run_planGroups, Session.contract]
  cases desk.session.planGroups subscripts (Grouping.mergeOverlapping groups) desk.session.nextTensor with
  | error e => rfl
  | ok planned =>
    show (forM planned commit >>= fun _ => pure (planned.flatMap fun p => p.op.outputs)).run desk = _
    rw [run_bind, run_commits]
    rfl

theorem run_transpose (tensor : TensorId) (permutation : List Int) (desk : Desk) :
    (transpose tensor permutation).run desk = desk.outcome (desk.session.transpose tensor permutation) := by
  rw [transpose, run_checkRank, Session.transpose]
  refine run_require_outcome fun _ => ?_
  split
  · rfl
  · rw [run_current]
    refine run_require_outcome fun t => ?_
    rw [run_bind, run_commit]
    rfl

theorem run_split (tensor : TensorId) (permutation : List Int) (left : Int) (desk : Desk) :
    (split tensor permutation left).run desk = desk.outcome (desk.session.split tensor permutation left) := by
  rw [split, run_rank, Session.split]
  refine run_require_outcome fun known => ?_
  rw [run_checkRank]
  refine run_require_outcome fun _ => ?_
  rw [run_current]
  split
  · refine run_require_outcome fun planned => ?_
    rw [run_bind, run_commits]
    rfl
  · -- Both operations are built before either of them is committed.
    refine run_require_outcome fun t => run_require_outcome fun planned => ?_
    rw [run_bind, run_commits]
    rfl

theorem run_splitInPlace (tensor : TensorId) (left : Int) (desk : Desk) :
    (splitInPlace tensor left).run desk = desk.outcome (desk.session.splitInPlace tensor left) := by
  rw [splitInPlace, run_rank, Session.splitInPlace]
  exact run_require_outcome fun known => run_split tensor _ left desk

theorem run_regenerate (desk : Desk) : regenerate.run desk = desk.outcome desk.session.regenerate := by
  rw [regenerate, run_current, Session.regenerate]
  exact run_require_outcome fun source => rfl

/-- An answer is made of the result, step by step as at once. -/
theorem run_answer {x : Edit α} {served : Except Error (α × Session × List Event)} {desk : Desk}
    (same : x.run desk = desk.outcome served) (answer : α → Answer) :
    (x >>= fun a => pure (answer a)).run desk = desk.outcome (served.map fun (a, after) => (answer a, after)) := by
  rw [run_bind, same]
  cases served <;> rfl

/-- Served step by step, a request comes to the same as served at once. -/
theorem run_perform (request : Request) (desk : Desk) :
    (perform request).run desk = desk.outcome (desk.session.serve request) := by
  cases request with
  | addTensor rank =>
    refine (run_answer (run_addTensor rank desk) .tensor).trans ?_
    rw [Session.serve]
    cases desk.session.addTensor rank <;> rfl
  | contract groups subscripts => exact run_answer (run_contract groups subscripts desk) .tensors
  | transpose tensor permutation => exact run_answer (run_transpose tensor permutation desk) .tensor
  | splitInPlace tensor left =>
    exact run_answer (run_splitInPlace tensor left desk) fun factors => .tensors [factors.1, factors.2]
  | split tensor permutation left =>
    exact run_answer (run_split tensor permutation left desk) fun factors => .tensors [factors.1, factors.2]
  | rank tensor =>
    rw [perform, Session.serve, run_rank, run_require_bind]
    cases desk.session.rank tensor with
    | error e => rfl
    | ok known =>
      simp only [Except.map, Desk.outcome, List.append_nil]
      rfl
  | regenerate => exact run_answer (run_regenerate desk) fun code => .code (some code)
  | code =>
    simp only [Session.serve, Desk.outcome, List.append_nil]
    rfl
  | reset =>
    simp only [Session.serve, Desk.outcome, List.append_nil]
    rfl
  | append candidate =>
    refine (run_answer (run_append candidate desk) fun _ => .done).trans ?_
    rw [Session.serve]
    cases desk.session.append candidate <;> rfl

/-- Whatever refuses a request, the desk is left as it was. -/
theorem kept_of_error {request : Request} {desk after : Desk} {e : Error}
    (refused : (perform request).run desk = .error e after) : after = desk := by
  rw [run_perform] at refused
  cases served : desk.session.serve request with
  | error cause =>
    rw [served] at refused
    cases refused
    rfl
  | ok result =>
    rw [served] at refused
    cases refused

end Edit

namespace Desk

theorem after_session (desk : Desk) (request : Request) :
    (desk.after request).session = desk.session.after request := by
  unfold Desk.after Session.after
  rw [Edit.run_perform]
  cases desk.session.serve request <;> rfl

/-- What holds of the runs of a session holds of runs performed step by step. -/
theorem run_session (desk : Desk) (requests : List Request) :
    (desk.run requests).session = desk.session.run requests := by
  induction requests generalizing desk with
  | nil => rfl
  | cons request rest ih =>
    have later := ih (desk.after request)
    rw [after_session] at later
    exact later

/-- What is remembered as the generated text once a request was performed. -/
def remembered (text : Option String) : Request → EStateM.Result Error Desk Answer → Option String
  | .reset, .ok _ _ => none
  | .regenerate, .ok (.code generated) _ => generated
  | _, _ => text

/-- The text that the last successful generation gave since the last reset. -/
def lastText (desk : Desk) (text : Option String) : List Request → Option String
  | [] => text
  | request :: rest =>
      (desk.after request).lastText (remembered text request ((Edit.perform request).run desk)) rest

theorem after_code (desk : Desk) (request : Request) :
    (desk.after request).session.code = remembered desk.session.code request ((Edit.perform request).run desk) := by
  unfold Desk.after
  rw [Edit.run_perform]
  cases served : desk.session.serve request with
  | error e =>
    cases request with
    | reset => cases served
    | _ => rfl
  | ok result =>
    obtain ⟨answer, next, events⟩ := result
    cases Session.serve_effect served with
    | committed planned ungenerated continued =>
      obtain ⟨ranks, count, frame⟩ := Session.commitAll_frame planned desk.session
      have kept : (desk.session.commitAll planned).code = desk.session.code := by rw [frame]
      cases request with
      | reset => exact absurd rfl continued
      | regenerate => exact absurd rfl ungenerated
      | _ => exact kept
    | _ => rfl

theorem run_code (desk : Desk) (requests : List Request) :
    (desk.run requests).session.code = desk.lastText desk.session.code requests := by
  induction requests generalizing desk with
  | nil => rfl
  | cons request rest ih =>
    rw [lastText, ← after_code]
    exact ih (desk.after request)

end Desk

namespace Edit

/-- Requests are all or nothing. One that fails leaves everything as it was. A
contraction of several groups contracts each of them or none, a split that is
refused leaves no transposition behind, and after any requests a generation that
fails keeps the text that succeeded last. -/
theorem perform_all_or_nothing (desk : Desk) :
    (∀ request e after, (perform request).run desk = .error e after → after = desk) ∧
    (∀ groups subscripts answer after, (perform (.contract groups subscripts)).run desk = .ok answer after →
      ∃ cs : List Contraction,
        after.session.program.operations = desk.session.program.operations ++ cs.map .contraction ∧
        cs.map Contraction.inputs = Grouping.mergeOverlapping groups) ∧
    (∀ tensor permutation left rank, desk.session.ranks.get? tensor = some rank →
      left < 1 ∨ (rank : Int) ≤ left →
      ∃ e, (perform (.split tensor permutation left)).run desk = .error e desk) ∧
    (∀ name requests e after, desk = (Desk.start name).run requests →
      (perform .regenerate).run desk = .error e after →
      after.session.code = (Desk.start name).lastText none requests) := by
  refine ⟨fun request e after => kept_of_error, ?_, ?_, ?_⟩
  · intro groups subscripts answer after performed
    rw [run_perform, Session.serve] at performed
    cases served : desk.session.contract groups subscripts with
    | error e =>
      rw [served] at performed
      cases performed
    | ok result =>
      rw [served] at performed
      cases performed
      exact Session.contract_appends served
  · intro tensor permutation left rank known outside
    obtain ⟨e, refused⟩ := Session.split_refused known outside permutation
    refine ⟨e, ?_⟩
    rw [run_perform, Session.serve, refused]
    rfl
  · rintro name requests e after rfl refused
    rw [kept_of_error refused]
    exact Desk.run_code (Desk.start name) requests

/-- A tensor is transposed, its text generated, and the transposition appended once
more behind the session's back. Then the second of two groups has no subscripts, a
split of a transposed matrix comes too late, and the program cannot be compiled. -/
theorem perform_all_or_nothing_duplicate :
    let requests : List Request := [.addTensor 2, .addTensor 2, .transpose 0 [1, 0], .regenerate,
      .append (.operation (.transposition ⟨0, [1, 0], 2, by decide⟩))]
    let desk := (Desk.start "f").run requests
    desk.session.program.length = 2 ∧
      (∃ e, (perform (.contract [[0], [1]] (.ofList [(0, [5, 5])]))).run desk = .error e desk) ∧
      (∃ e, (perform (.split 0 [1, 0] 2)).run desk = .error e desk) ∧
      ∃ e after, (perform .regenerate).run desk = .error e after ∧ after.session.code.isSome = true := by
  intro requests desk
  obtain ⟨kept, -, split, generated⟩ := perform_all_or_nothing desk
  obtain ⟨e, after, failed⟩ :
      ∃ e after, (perform (.contract [[0], [1]] (.ofList [(0, [5, 5])]))).run desk = .error e after :=
    ⟨_, _, rfl⟩
  obtain ⟨e', after', refused⟩ : ∃ e after, (perform .regenerate).run desk = .error e after := ⟨_, _, rfl⟩
  refine ⟨rfl, ⟨e, ?_⟩, split 0 [1, 0] 2 2 rfl (.inr (Int.le_refl 2)), e', after', refused, ?_⟩
  · rw [failed, kept _ _ _ failed]
  · rw [generated "f" requests e' after' rfl refused]
    rfl

end Edit
end TensorNetwork
