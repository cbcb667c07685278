import TensorNetwork.Proofs.Construction
import TensorNetwork.Proofs.SingleAssignment
import TensorNetwork.Session.Request

/-! What a session keeps true while it commits operations. It hands out tensors
one after the other, starting from zero, and knows the rank of each; what it
commits uses tensors it knows, with their ranks, and produces the next ones. -/
namespace TensorNetwork

namespace Operation

/-- The tensors that an operation uses, each with the rank it is used with. -/
def uses : Operation → List (TensorId × Nat)
  | .contraction c => c.operands.map fun operand => (operand.tensor, operand.labels.length)
  | .transposition t => [(t.input, t.rank)]
  | .split s => [(s.input, s.rank)]
  | .foreign _ => []

/-- The ranks of the tensors that an operation produces. -/
def outputRanks : Operation → List Nat
  | .contraction c => [c.kept.length]
  | .transposition t => [t.rank]
  | .split s => [s.left + 1, s.right + 1]
  | .foreign _ => []

/-- Every label that is kept labels an axis. -/
def Bound : Operation → Prop
  | .contraction c => ∀ label ∈ c.kept, label ∈ c.labels
  | _ => True

theorem inputs_eq_uses {op : Operation} (known : op.Known) : op.inputs = op.uses.map Prod.fst := by
  cases op with
  | contraction c => simp [inputs, uses, Contraction.inputs]
  | transposition t => rfl
  | split s => rfl
  | foreign f => exact known.elim

end Operation

namespace Session

/-- So many tensors in a row. -/
def consecutive (first : TensorId) : Nat → List TensorId
  | 0 => []
  | n + 1 => first :: consecutive (first + 1) n

theorem mem_consecutive {first tensor : TensorId} {n : Nat} :
    tensor ∈ consecutive first n ↔ first ≤ tensor ∧ tensor < first + n := by
  induction n generalizing first with
  | zero =>
    simp only [consecutive, List.not_mem_nil, false_iff]
    lia
  | succ n ih =>
    rw [consecutive, List.mem_cons, ih]
    lia

theorem consecutive_ascending (first : TensorId) (n : Nat) : (consecutive first n).Pairwise (· < ·) := by
  induction n generalizing first with
  | zero => exact .nil
  | succ n ih =>
    refine List.pairwise_cons.mpr ⟨fun tensor member => ?_, ih (first + 1)⟩
    have := (mem_consecutive.mp member).1
    lia

theorem consecutive_append (first : TensorId) (m n : Nat) :
    consecutive first (m + n) = consecutive first m ++ consecutive (first + m) n := by
  induction m generalizing first with
  | zero => simp [consecutive]
  | succ m ih =>
    have shifted : first + 1 + (m : Int) = first + (m + 1 : Nat) := by lia
    rw [Nat.succ_add, consecutive, consecutive, ih, shifted]
    rfl

theorem register_count (s : Session) (rank : Nat) : (s.register s.count rank).count = s.count + 1 := by
  simp only [register]
  lia

/-- Registers ranks for the next tensors. -/
def registerNext (s : Session) (ranks : List Nat) : Session :=
  ((consecutive s.count ranks.length).zip ranks).foldl (fun s entry => s.register entry.1 entry.2) s

theorem registerNext_cons (s : Session) (rank : Nat) (ranks : List Nat) :
    s.registerNext (rank :: ranks) = (s.register s.count rank).registerNext ranks := by
  rw [registerNext, registerNext, register_count]
  rfl

theorem registerNext_count (s : Session) (ranks : List Nat) :
    (s.registerNext ranks).count = s.count + ranks.length := by
  induction ranks generalizing s with
  | nil => simp [registerNext, consecutive]
  | cons rank ranks ih =>
    rw [registerNext_cons, ih, register_count, List.length_cons]
    lia

theorem registerNext_rank (s : Session) (ranks : List Nat) (tensor : TensorId) :
    (s.registerNext ranks).ranks.get? tensor =
      if tensor ∈ consecutive s.count ranks.length then ranks[(tensor - s.count).toNat]?
      else s.ranks.get? tensor := by
  induction ranks generalizing s with
  | nil => simp [registerNext, consecutive]
  | cons rank ranks ih =>
    rw [registerNext_cons, ih, register_count]
    simp only [register, IntMap.get?_insert, List.length_cons, consecutive, List.mem_cons]
    by_cases first : tensor = s.count
    · subst first
      have above : s.count ∉ consecutive (s.count + 1) ranks.length := fun member => by
        have := (mem_consecutive.mp member).1
        lia
      simp [above]
    · by_cases later : tensor ∈ consecutive (s.count + 1) ranks.length
      · have bound := (mem_consecutive.mp later).1
        have shifted : (tensor - s.count).toNat = (tensor - (s.count + 1)).toNat + 1 := by lia
        simp [later, shifted]
      · simp [first, later, Ne.symm first]

/-- Committing an operation with one output registers that output. -/
theorem commit_single {s : Session} {planned : Planned} {tensor : TensorId} {rank : Nat}
    (outputs : planned.op.outputs = [tensor]) (ranks : planned.ranks = [rank]) :
    s.commit planned = { s.register tensor rank with program := s.program.push planned.op } := by
  rw [commit, outputs, ranks]
  rfl

theorem commitAll_cons (s : Session) (first : Planned) (rest : List Planned) :
    s.commitAll (first :: rest) = (s.commit first).commitAll rest := rfl

/-- An operation that a session may commit next. -/
structure Fits (s : Session) (planned : Planned) : Prop where
  known : planned.op.Known
  bound : planned.op.Bound
  normal : planned.op.normalized = .ok planned.op
  uses : ∀ use ∈ planned.op.uses, s.ranks.get? use.1 = some use.2
  outputs : planned.op.outputs = consecutive s.count planned.ranks.length
  ranks : planned.ranks = planned.op.outputRanks

theorem Fits.commit_eq {s : Session} {planned : Planned} (fits : s.Fits planned) :
    s.commit planned = { s.registerNext planned.ranks with program := s.program.push planned.op } := by
  rw [commit, fits.outputs]
  rfl

/-- What holds of a session that was only changed by its own requests. -/
structure Sound (s : Session) : Prop where
  count_nonneg : 0 ≤ s.count
  registered : ∀ tensor, s.ranks.contains tensor = true ↔ 0 ≤ tensor ∧ tensor < s.count
  consumed : ∀ tensor ∈ consumed s.program.operations, s.ranks.contains tensor = true
  produced : ∀ tensor ∈ produced s.program.operations, s.ranks.contains tensor = true
  single : SingleAssignment s.program.operations

theorem start_sound (name : String) : (start name).Sound where
  count_nonneg := Int.le_refl 0
  registered tensor := by
    simp only [start, IntMap.contains, IntMap.get?_empty, Option.isSome_none, Bool.false_eq_true, false_iff]
    lia
  consumed _ member := by cases member
  produced _ member := by cases member
  single := .nil

theorem Sound.mem_program {s : Session} (sound : s.Sound) {op : Operation}
    (member : op ∈ s.program.operations) {tensor : TensorId} (occurs : tensor ∈ op.inputs ++ op.outputs) :
    s.ranks.contains tensor = true := by
  rcases List.mem_append.mp (mentioned_of_mem member occurs) with used | made
  · exact sound.consumed tensor used
  · exact sound.produced tensor made

/-- The next tensor comes after all that are counted and all that are produced. -/
theorem le_nextTensor (s : Session) :
    s.count ≤ s.nextTensor ∧ ∀ tensor ∈ TensorNetwork.produced s.program.operations, tensor < s.nextTensor := by
  have bounds : ∀ (tensors : List TensorId) (count : Int),
      count ≤ tensors.foldl (fun next tensor => max next (tensor + 1)) count ∧
        ∀ tensor ∈ tensors, tensor < tensors.foldl (fun next tensor => max next (tensor + 1)) count := by
    intro tensors
    induction tensors with
    | nil => simp
    | cons first rest ih =>
      intro count
      obtain ⟨above, below⟩ := ih (max count (first + 1))
      rw [List.foldl_cons]
      refine ⟨by lia, fun tensor member => ?_⟩
      rcases List.mem_cons.mp member with rfl | later
      · lia
      · exact below tensor later
  exact bounds _ s.count

theorem Sound.nextTensor {s : Session} (sound : s.Sound) : s.nextTensor = s.count := by
  have settled : ∀ (tensors : List TensorId), (∀ tensor ∈ tensors, tensor < s.count) →
      tensors.foldl (fun next tensor => max next (tensor + 1)) s.count = s.count := by
    intro tensors
    induction tensors with
    | nil => intro _; rfl
    | cons tensor rest ih =>
      intro below
      have first := below tensor List.mem_cons_self
      rw [List.foldl_cons, Int.max_eq_left (by lia)]
      exact ih fun t member => below t (List.mem_cons_of_mem _ member)
  exact settled _ fun tensor member => ((sound.registered tensor).mp (sound.produced tensor member)).2

/-- No registered tensor reaches the count. -/
def Bounded (s : Session) : Prop := ∀ tensor, s.ranks.contains tensor = true → tensor < s.count

theorem Sound.bounded {s : Session} (sound : s.Sound) : s.Bounded :=
  fun tensor registered => ((sound.registered tensor).mp registered).2

theorem contains_insert (ranks : IntMap Nat) (tensor other : TensorId) (rank : Nat) :
    (ranks.insert tensor rank).contains other = true ↔ tensor = other ∨ ranks.contains other = true := by
  rw [IntMap.contains, IntMap.get?_insert, IntMap.contains]
  by_cases same : tensor = other <;> simp [same]

theorem Bounded.register {s : Session} (bounded : s.Bounded) (tensor : TensorId) (rank : Nat) :
    (s.register tensor rank).Bounded := by
  intro other registered
  have below : other < max s.count (tensor + 1) := by
    rcases (contains_insert s.ranks tensor other rank).mp registered with rfl | old
    · lia
    · have := bounded other old
      lia
  exact below

theorem Bounded.commit {s : Session} (bounded : s.Bounded) (planned : Planned) : (s.commit planned).Bounded := by
  have registered : ∀ (entries : List (TensorId × Nat)) (s : Session), s.Bounded →
      (entries.foldl (fun s entry => s.register entry.1 entry.2) s).Bounded := by
    intro entries
    induction entries with
    | nil => exact fun _ bounded => bounded
    | cons entry rest ih => exact fun s bounded => ih _ (bounded.register entry.1 entry.2)
  exact registered _ s bounded

namespace Fits
variable {s : Session} {planned : Planned}

theorem commit_count (fits : s.Fits planned) :
    (s.commit planned).count = s.count + planned.ranks.length := by
  rw [fits.commit_eq]
  exact s.registerNext_count planned.ranks

theorem commit_rank (fits : s.Fits planned) (tensor : TensorId) :
    (s.commit planned).ranks.get? tensor =
      if tensor ∈ planned.op.outputs then planned.ranks[(tensor - s.count).toNat]?
      else s.ranks.get? tensor := by
  rw [fits.commit_eq, fits.outputs]
  exact s.registerNext_rank planned.ranks tensor

theorem commit_contains (fits : s.Fits planned) (tensor : TensorId) :
    (s.commit planned).ranks.contains tensor = true ↔
      tensor ∈ planned.op.outputs ∨ s.ranks.contains tensor = true := by
  rw [IntMap.contains, fits.commit_rank]
  by_cases output : tensor ∈ planned.op.outputs
  · have bounds := mem_consecutive.mp (fits.outputs ▸ output)
    have inside : (tensor - s.count).toNat < planned.ranks.length := by lia
    simp [output, inside]
  · simp [output, IntMap.contains]

/-- The ranks known before are not changed. -/
theorem commit_keeps (fits : s.Fits planned) (bounded : s.Bounded) {tensor : TensorId} {rank : Nat}
    (known : s.ranks.get? tensor = some rank) : (s.commit planned).ranks.get? tensor = some rank := by
  have old : tensor < s.count := bounded tensor (by simp [IntMap.contains, known])
  have apart : tensor ∉ planned.op.outputs := fun output => by
    have := (mem_consecutive.mp (fits.outputs ▸ output)).1
    lia
  rw [fits.commit_rank, if_neg apart, known]

theorem input_registered (fits : s.Fits planned) {tensor : TensorId} (input : tensor ∈ planned.op.inputs) :
    s.ranks.contains tensor = true := by
  rw [Operation.inputs_eq_uses fits.known] at input
  obtain ⟨use, member, rfl⟩ := List.mem_map.mp input
  simp [IntMap.contains, fits.uses use member]

theorem admits (fits : s.Fits planned) (sound : s.Sound) : Admits s.program.operations planned.op := by
  have above : ∀ tensor ∈ planned.op.outputs, s.ranks.contains tensor ≠ true := by
    intro tensor output registered
    have := (mem_consecutive.mp (fits.outputs ▸ output)).1
    have := ((sound.registered tensor).mp registered).2
    lia
  refine ⟨fits.known, ?_, ?_, ?_, ?_⟩
  · rw [fits.outputs]
    exact (consecutive_ascending _ _).imp fun below => Int.ne_of_lt below
  · exact fun tensor output input => above tensor output (fits.input_registered input)
  · exact fun tensor output used => above tensor output (sound.consumed tensor used)
  · exact fun tensor output made => above tensor output (sound.produced tensor made)

theorem commit_sound (fits : s.Fits planned) (sound : s.Sound) : (s.commit planned).Sound where
  count_nonneg := by
    have := sound.count_nonneg
    rw [fits.commit_count]
    lia
  registered tensor := by
    have := sound.count_nonneg
    rw [fits.commit_contains, sound.registered, fits.commit_count, fits.outputs, mem_consecutive]
    lia
  consumed tensor member := by
    rw [fits.commit_contains]
    rcases List.mem_append.mp (consumed_snoc _ _ ▸ member) with old | new
    · exact .inr (sound.consumed tensor old)
    · exact .inr (fits.input_registered new)
  produced tensor member := by
    rw [fits.commit_contains]
    rcases List.mem_append.mp (produced_snoc _ _ ▸ member) with old | new
    · exact .inr (sound.produced tensor old)
    · exact .inl new
  single := SingleAssignment.snoc_iff.mpr ⟨sound.single, fits.admits sound⟩

end Fits

/-- Operations that a session may commit one after the other. -/
def FitAll : Session → List Planned → Prop
  | _, [] => True
  | s, planned :: rest => s.Fits planned ∧ FitAll (s.commit planned) rest

theorem FitAll.sound {s : Session} {planned : List Planned} (fit : s.FitAll planned) (sound : s.Sound) :
    (s.commitAll planned).Sound := by
  induction planned generalizing s with
  | nil => exact sound
  | cons first rest ih => exact ih fit.2 (fit.1.commit_sound sound)

/-- Together they produce tensors in a row. -/
theorem FitAll.outputs {s : Session} {planned : List Planned} (fit : s.FitAll planned) :
    ∃ n : Nat, (planned.flatMap fun p => p.op.outputs) = consecutive s.count n ∧
      (s.commitAll planned).count = s.count + n := by
  induction planned generalizing s with
  | nil => exact ⟨0, rfl, by simp [commitAll]⟩
  | cons first rest ih =>
    obtain ⟨n, outputs, count⟩ := ih fit.2
    refine ⟨first.ranks.length + n, ?_, ?_⟩
    · rw [List.flatMap_cons, outputs, fit.1.outputs, fit.1.commit_count, consecutive_append]
    · rw [commitAll, List.foldl_cons]
      rw [commitAll, fit.1.commit_count] at count
      rw [count]
      lia

end Session
end TensorNetwork
