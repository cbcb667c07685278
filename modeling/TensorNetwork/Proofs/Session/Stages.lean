import TensorNetwork.Proofs.Session.Atomic

/-! A split is a transposition followed by a split of the transposed tensor with its axes
in place. The one request checks everything before its first commit and reserves all its
tensors at once; in two requests the second finds what the first has left: the tensor
that it splits is registered with the same rank, and the next tensors are the same. -/
namespace TensorNetwork

namespace Session
variable {s : Session} {tensor : TensorId} {permutation : List Int} {rank : Nat} {left : Int}

/-- Counting one tensor more moves the next tensor past it. -/
theorem foldl_max_next (tensors : List TensorId) (count bound : Int) :
    tensors.foldl (fun next tensor => max next (tensor + 1)) (max count bound) =
      max (tensors.foldl (fun next tensor => max next (tensor + 1)) count) bound := by
  induction tensors generalizing count with
  | nil => rfl
  | cons first rest ih =>
    rw [List.foldl_cons, List.foldl_cons, ← ih]
    congr 1
    lia

theorem nextTensor_commit {planned : Planned} (outputs : planned.op.outputs = [s.nextTensor])
    (ranks : planned.ranks = [rank]) : (s.commit planned).nextTensor = s.nextTensor + 1 := by
  have produced : (s.program.push planned.op).produced = s.program.produced ++ [s.nextTensor] := by
    simp [Program.produced, Program.push, outputs]
  have next : s.program.produced.foldl (fun next tensor => max next (tensor + 1)) s.count = s.nextTensor := rfl
  rw [commit_single outputs ranks, nextTensor, produced, List.foldl_append, register, foldl_max_next, next]
  simp only [List.foldl_cons, List.foldl_nil]
  lia

theorem isIdentity_identityPermutation (rank : Nat) : isIdentity (identityPermutation rank) = true := by
  simp [isIdentity, identityPermutation]

/-- A split with the axes in place. -/
theorem split_identity (known : s.ranks.get? tensor = some rank) (sized : permutation.length = rank)
    (identity : isIdentity permutation = true) :
    s.split tensor permutation left = (planSplit tensor rank left s.nextTensor).map
      fun (split, planned) => ((split.q, split.r), s.commit planned, appendedEvents [planned]) := by
  have checked : s.checkRank tensor permutation.length = .ok () := checkRank_eq_ok.mpr (sized ▸ known)
  simp only [split, rank_eq_ok.mpr known, checked, identity, bind, Except.bind, if_true]
  cases planSplit tensor rank left s.nextTensor <;> rfl

theorem splitInPlace_eq (known : s.ranks.get? tensor = some rank) :
    s.splitInPlace tensor left = (planSplit tensor rank left s.nextTensor).map
      fun (split, planned) => ((split.q, split.r), s.commit planned, appendedEvents [planned]) := by
  have sized : (identityPermutation rank).length = rank := by simp [identityPermutation]
  rw [splitInPlace, rank_eq_ok.mpr known]
  exact split_identity known sized (isIdentity_identityPermutation rank)

/-- What a request leaves to be seen, its reports aside. -/
def settled {α : Type} (served : Except Error (α × Session × List Event)) : Except Error (α × Session) :=
  served.map fun (a, next, _) => (a, next)

/-- Once a tensor is transposed, the split in place finds what the one request has planned. -/
theorem splitInPlace_transposed {t : Transposition} (built : Transposition.make tensor permutation s.nextTensor = .ok t)
    (sized : permutation.length = rank) :
    (s.commit ⟨.transposition t, [t.rank]⟩).splitInPlace t.output left =
      (planSplit s.nextTensor rank left (s.nextTensor + 1)).map fun (split, planned) =>
        ((split.q, split.r), s.commitAll [⟨.transposition t, [rank]⟩, planned], appendedEvents [planned]) := by
  obtain ⟨-, order, output⟩ := Transposition.make_eq_ok built
  have ranked : t.rank = rank := by rw [Transposition.rank, order, sized]
  have outputs : (Operation.transposition t).outputs = [s.nextTensor] := by rw [Operation.outputs, output]
  have known : (s.commit ⟨.transposition t, [rank]⟩).ranks.get? s.nextTensor = some rank := by
    rw [commit_single outputs rfl]
    simp [register, IntMap.get?_insert]
  rw [output, ranked, splitInPlace_eq known, nextTensor_commit outputs rfl]
  rfl

theorem split_stages_settled (s : Session) (tensor : TensorId) (permutation : List Int) (left : Int) :
    settled (s.split tensor permutation left) =
      settled (s.transpose tensor permutation >>= fun (turned, next, _) => next.splitInPlace turned left) := by
  cases known : s.ranks.get? tensor with
  | none => simp [split, transpose, checkRank, Session.rank, known, bind, Except.bind, settled]
  | some rank =>
    by_cases sized : permutation.length = rank
    · have checked : s.checkRank tensor permutation.length = .ok () := checkRank_eq_ok.mpr (sized ▸ known)
      cases identity : isIdentity permutation with
      | true =>
        have skipped : s.transpose tensor permutation = .ok (tensor, s, [.skipped tensor]) := by
          simp [transpose, checked, identity, bind, Except.bind]
        rw [split_identity known sized identity, skipped]
        exact congrArg settled (splitInPlace_eq known).symm
      | false =>
        simp only [split, transpose, checked, rank_eq_ok.mpr known, identity, bind, Except.bind]
        cases built : Transposition.make tensor permutation s.nextTensor with
        | error e => rfl
        | ok t =>
          simp only [Bool.false_eq_true, if_false, splitInPlace_transposed built sized]
          cases planSplit s.nextTensor rank left (s.nextTensor + 1) <;> rfl
    · have apart : rank ≠ permutation.length := Ne.symm sized
      simp [split, transpose, checkRank, Session.rank, known, apart, bind, Except.bind, settled]

end Session

namespace Edit

/-- What steps leave to be seen, their reports aside: a result with the session, or the
cause of the failure. -/
def settled {α : Type} : EStateM.Result Error Desk α → Except Error (α × Session)
  | .ok a desk => .ok (a, desk.session)
  | .error e _ => .error e

theorem settled_outcome {α : Type} (desk : Desk) (served : Except Error (α × Session × List Event)) :
    settled (desk.outcome served) = Session.settled served := by
  cases served <;> rfl

/-- Splitting a tensor along a permutation is transposing it and then splitting the result
with its axes in place, from whatever session: both succeed or both fail, with the same
factors and the same session, or for the same cause. -/
theorem split_is_transpose_then_split (desk : Desk) (tensor : TensorId) (permutation : List Int) (left : Int) :
    settled ((split tensor permutation left).run desk) =
      settled (EStateM.run (do
        let turned ← transpose tensor permutation
        splitInPlace turned left) desk) := by
  rw [run_split, settled_outcome, Session.split_stages_settled, run_bind, run_transpose]
  cases desk.session.transpose tensor permutation with
  | error e => rfl
  | ok result =>
    obtain ⟨turned, next, events⟩ := result
    show Session.settled (next.splitInPlace turned left) =
      settled ((splitInPlace turned left).run ⟨next, desk.reports ++ events⟩)
    rw [run_splitInPlace, settled_outcome]

end Edit
end TensorNetwork
