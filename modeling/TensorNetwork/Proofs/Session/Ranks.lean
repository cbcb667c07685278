import TensorNetwork.Proofs.Session.Serve
import TensorNetwork.Proofs.Shape.Units

/-! The ranks that a session keeps are those of the shapes worked out for its
program. To see that shapes can be worked out at all, every axis is given the
extent one: then all axes agree, and what an instance can do, symbols can. -/
namespace TensorNetwork

namespace Session

/-- Every operation of the program accords with the ranks kept. -/
def Ranked (s : Session) : Prop := ∀ op ∈ s.program.operations, op.Accords s.ranks

theorem start_ranked (name : String) : (start name).Ranked := fun _ member => by cases member

theorem forall₂_consecutive {R : TensorId → Nat → Prop} {first : TensorId} {ranks : List Nat}
    (each : ∀ i (bound : i < ranks.length), R (first + i) ranks[i]) :
    List.Forall₂ R (consecutive first ranks.length) ranks := by
  induction ranks generalizing first with
  | nil => exact .nil
  | cons rank rest ih =>
    have head := each 0 (Nat.zero_lt_succ _)
    rw [Int.natCast_zero, Int.add_zero] at head
    refine .cons head (ih fun i bound => ?_)
    have next := each (i + 1) (Nat.succ_lt_succ bound)
    have shifted : first + ((i + 1 : Nat) : Int) = first + 1 + i := by lia
    rw [shifted] at next
    exact next

theorem Fits.commit_outputs {s : Session} {planned : Planned} (fits : s.Fits planned) :
    List.Forall₂ (fun tensor rank => (s.commit planned).ranks.get? tensor = some rank)
      planned.op.outputs planned.op.outputRanks := by
  rw [← fits.ranks, fits.outputs]
  refine forall₂_consecutive fun i bound => ?_
  have output : s.count + (i : Int) ∈ planned.op.outputs := by
    rw [fits.outputs, mem_consecutive]
    lia
  have index : (s.count + (i : Int) - s.count).toNat = i := by lia
  rw [fits.commit_rank, if_pos output, index, List.getElem?_eq_getElem bound]

theorem Fits.commit_ranked {s : Session} {planned : Planned} (fits : s.Fits planned) (sound : s.Sound)
    (ranked : s.Ranked) : (s.commit planned).Ranked := by
  have keeps : ∀ tensor rank, s.ranks.get? tensor = some rank →
      (s.commit planned).ranks.get? tensor = some rank := fun _ _ known => fits.commit_keeps sound.bounded known
  intro op member
  have either : op ∈ s.program.operations ∨ op = planned.op := by simpa [commit, Program.push] using member
  rcases either with old | rfl
  · exact (ranked op old).grow keeps
  · exact ⟨fits.known, fits.bound, fun use used => keeps _ _ (fits.uses use used), fits.commit_outputs⟩

theorem FitAll.ranked {s : Session} {planned : List Planned} (fit : s.FitAll planned) (sound : s.Sound)
    (ranked : s.Ranked) : (s.commitAll planned).Ranked := by
  induction planned generalizing s with
  | nil => exact ranked
  | cons first rest ih => exact ih fit.2 (fit.1.commit_sound sound) (fit.1.commit_ranked sound ranked)

theorem Change.ranked {s next : Session} {tensors : List TensorId} (change : s.Change next tensors)
    (sound : s.Sound) (ranked : s.Ranked) : next.Ranked := by
  cases change with
  | idle code => exact ranked
  | registered rank =>
    refine fun op member => (ranked op member).grow fun tensor rank' known => ?_
    have old := ((sound.registered tensor).mp (by simp [IntMap.contains, known])).2
    have apart : s.count ≠ tensor := by lia
    rw [IntMap.get?_insert, if_neg apart, known]
  | committed planned fit => exact fit.ranked sound ranked

/-- Requests that are served keep ranks and program in accord. -/
theorem serve_ranked {s next : Session} {request : Request} {answer : Answer} {events : List Event} (sound : s.Sound)
    (ranked : s.Ranked) (served : s.serve request = .ok (answer, next, events))
    (indirect : request.isDirect = false) (continued : request ≠ .reset) : next.Sound ∧ next.Ranked := by
  have change := (serve_advance sound.bounded indirect continued served).change sound
  exact ⟨change.sound sound, change.ranked sound ranked⟩

/-- However a session was driven, shapes can be worked out for its program from
nothing, and every tensor of the program has as many axes as its rank says. -/
theorem run_ranks_agree (name : String) (requests : List Request)
    (indirect : ∀ request ∈ requests, request.isDirect = false) :
    ∃ table, ShapeTable.infer ((start name).run requests).program [] = .ok table ∧
      ∀ op ∈ ((start name).run requests).program.operations, ∀ tensor ∈ op.inputs ++ op.outputs,
        ∃ shape, table.shape tensor = .ok shape ∧ ((start name).run requests).rank tensor = .ok shape.length := by
  obtain ⟨sound, ranked⟩ := run_induction (P := Ranked) start_ranked
    (fun sound ranked change => change.ranked sound ranked) indirect (start_sound name) (start_ranked name)
  generalize (start name).run requests = s at sound ranked ⊢
  obtain ⟨table, done, known⟩ := ShapeTable.run_from_nothing sound.single ranked
  refine ⟨table, done, fun op member tensor mentioned => ?_⟩
  have occurs := mentioned_of_mem member mentioned
  have registered := sound.mem_program member mentioned
  obtain ⟨rank, kept⟩ := Option.isSome_iff_exists.mp registered
  obtain ⟨shape, shown, length⟩ := known tensor rank occurs kept
  exact ⟨shape, ShapeTable.shape_eq_ok.mpr shown, by simp [Session.rank, kept, length]⟩

/-- A contraction that sums a label away, a refused one, a transposition with a split. -/
theorem run_ranks_agree_sample :
    let requests : List Request :=
      [.addTensor 3, .addTensor 2, .contract [[0, 1]] (.ofList [(0, [4, 5, 6]), (1, [6, 7])]),
        .contract [[0, 1]] (.ofList [(0, [4, 5]), (1, [6, 7])]), .split 2 [2, 0, 1] 2]
    ∃ table shape, ShapeTable.infer ((start "f").run requests).program [] = .ok table ∧
      table.shape 4 = .ok shape ∧ shape.length = 3 := by
  intro requests
  obtain ⟨table, inferred, agree⟩ := run_ranks_agree "f" requests (by decide)
  obtain ⟨shape, shown, kept⟩ := agree (.split ⟨3, 3, 2, 4, 5, by decide, by decide⟩) (by decide) 4 (by decide)
  have rank : ((start "f").run requests).rank 4 = .ok 3 := rfl
  rw [kept] at rank
  exact ⟨table, shape, inferred, shown, Except.ok.inj rank⟩

end Session
end TensorNetwork
