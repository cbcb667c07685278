import TensorNetwork.Proofs.Normalization
import TensorNetwork.Proofs.Session.Contract
import TensorNetwork.Proofs.Session.Ranks
import TensorNetwork.Proofs.Session.Stages
import TensorNetwork.Proofs.Shape.Relations

/-! Contracting the two factors of a split over their bond gives a tensor with the axes
of the one that was split, in the order in which it was split. The requests leave a
transposition, if one is needed, a split and a contraction in the program; the shapes of
all their tensors are related in the table of the whole program. -/
namespace TensorNetwork

/-- Members that do not repeat can be given any values. -/
theorem exists_map_eq {α β : Type} [DecidableEq α] (default : β) {l : List α} {r : List β} (nodup : l.Nodup)
    (length : l.length = r.length) : ∃ f : α → β, l.map f = r := by
  refine ⟨fun a => r.getD (l.idxOf a) default, List.ext_getElem (by simpa using length) fun i first second => ?_⟩
  rw [List.getElem_map, nodup.idxOf_getElem, List.getD_eq_getElem _ _ second]

namespace Session
variable {s : Session} {tensor : TensorId} {permutation : List Int} {rank left : Nat}

/-- What becomes of a tensor whose axes are to be permuted: it stays in place, or some
operation of the program transposes it. -/
inductive Turned (operations : List Operation) (tensor : TensorId) (permutation : List Int) : TensorId → Prop
  | inPlace (identity : isIdentity permutation = true) : Turned operations tensor permutation tensor
  | transposed (t : Transposition) (listed : .transposition t ∈ operations) (input : t.input = tensor)
      (order : t.permutation = permutation) : Turned operations tensor permutation t.output

theorem Turned.mono {operations more : List Operation} {turned : TensorId}
    (axes : Turned operations tensor permutation turned) (within : ∀ op ∈ operations, op ∈ more) :
    Turned more tensor permutation turned := by
  cases axes with
  | inPlace identity => exact .inPlace identity
  | transposed t listed input order => exact .transposed t (within _ listed) input order

theorem transpose_turned (known : s.ranks.get? tensor = some rank)
    (order : permutation.Perm (identityPermutation rank)) :
    ∃ turned next events, s.transpose tensor permutation = .ok (turned, next, events) ∧
      next.ranks.get? turned = some rank ∧ Turned next.program.operations tensor permutation turned := by
  have sized : permutation.length = rank := by simpa [identityPermutation] using order.length_eq
  have checked : s.checkRank tensor permutation.length = .ok () := checkRank_eq_ok.mpr (sized ▸ known)
  cases identity : isIdentity permutation with
  | true =>
    refine ⟨tensor, s, [.skipped tensor], ?_, known, .inPlace identity⟩
    simp [transpose, checked, identity, bind, Except.bind]
  | false =>
    have complete : ∀ axis, axis < permutation.length → (axis : Int) ∈ permutation := by
      intro axis bound
      exact order.mem_iff.mpr (List.mem_map_of_mem (List.mem_range.mpr (sized ▸ bound)))
    let t : Transposition := ⟨tensor, permutation, s.nextTensor, complete⟩
    have built : Transposition.make tensor permutation s.nextTensor = .ok t := t.make_self
    refine ⟨t.output, s.commit ⟨.transposition t, [t.rank]⟩, appendedEvents [⟨.transposition t, [t.rank]⟩],
      ?_, ?_, .transposed t ?_ rfl rfl⟩
    · simp [transpose, checked, identity, built, bind, Except.bind]
    · rw [commit_single rfl rfl]
      simp [register, IntMap.get?_insert, Transposition.rank, t, sized]
    · simp [commit, Program.push]

theorem splitInPlace_divides (known : s.ranks.get? tensor = some rank) (low : 1 ≤ left) (high : left < rank) :
    ∃ split next events, s.splitInPlace tensor left = .ok ((Split.q split, Split.r split), next, events) ∧
      split.input = tensor ∧ split.rank = rank ∧ split.left = left ∧ split.q < split.r ∧
      next.program = s.program.push (.split split) := by
  let split : Split := ⟨tensor, rank, left, s.nextTensor, s.nextTensor + 1, low, high⟩
  have made : Split.make tensor rank left s.nextTensor (s.nextTensor + 1) = .ok split := split.make_self
  let planned : Planned := ⟨.split split, [split.left + 1, split.right + 1]⟩
  refine ⟨split, s.commit planned, appendedEvents [planned], ?_, rfl, rfl, rfl, Int.lt_succ s.nextTensor, rfl⟩
  rw [splitInPlace_eq known, planSplit, made]
  rfl

/-- A split puts its factors next to each other. -/
theorem split_divides (known : s.ranks.get? tensor = some rank)
    (order : permutation.Perm (identityPermutation rank)) (low : 1 ≤ left) (high : left < rank) :
    ∃ split divided events, s.split tensor permutation left = .ok ((Split.q split, Split.r split), divided, events) ∧
      Turned divided.program.operations tensor permutation split.input ∧
      .split split ∈ divided.program.operations ∧ split.rank = rank ∧ split.left = left ∧ split.q < split.r := by
  obtain ⟨turned, middle, events, transposed, ranked, axes⟩ := transpose_turned known order
  obtain ⟨split, divided, more, divides, input, sizes, lefts, below, program⟩ := splitInPlace_divides ranked low high
  have stages := split_stages_settled s tensor permutation left
  simp only [transposed, bind, Except.bind, divides] at stages
  obtain ⟨⟨factors, next, events'⟩, served, same⟩ := Outcome.map_eq_ok.mp stages
  cases same
  refine ⟨split, divided, events', served, ?_, ?_, sizes, lefts, below⟩
  · rw [input, program]
    exact axes.mono fun op member => List.mem_append_left _ member
  · simp [program, Program.push]

theorem freeLabels_joint {before after : List Label} {joint : Label} (nodup : (joint :: (before ++ after)).Nodup) :
    freeLabels (before ++ [joint] ++ joint :: after) = before ++ after := by
  obtain ⟨apart, others⟩ := List.nodup_cons.mp nodup
  have counts : ∀ label, (before ++ [joint] ++ joint :: after).count label =
      (before ++ after).count label + if label = joint then 2 else 0 := by
    intro label
    by_cases same : label = joint
    · subst same
      simp [List.count_append]
      omega
    · simp [List.count_append, same, Ne.symm same]
  have free : ∀ label ∈ before ++ after, (before ++ [joint] ++ joint :: after).count label = 1 := by
    intro label member
    have single : label ≠ joint := fun same => apart (same ▸ member)
    rw [counts, List.count_eq_one_of_mem others member, if_neg single]
  have shared : (before ++ [joint] ++ joint :: after).count joint ≠ 1 := by
    rw [counts, if_pos rfl]
    omega
  rw [freeLabels, List.filter_append, List.filter_append, List.filter_cons_of_neg (by simpa using shared),
    List.filter_cons_of_neg (by simpa using shared), List.filter_nil, List.append_nil, ← List.filter_append,
    List.filter_eq_self]
  exact fun label member => decide_eq_true (free label member)

/-- The contraction of two factors over a joint label. The other labels are shared out
to them in their order. -/
def rejoining (q r output : TensorId) (labels : List Label) (joint : Label) (left : Nat) : Contraction :=
  joining [⟨q, labels.take left ++ [joint]⟩, ⟨r, joint :: labels.drop left⟩] output (List.cons_ne_nil _ _)

theorem rejoining_kept {labels : List Label} {joint : Label} (nodup : (joint :: labels).Nodup)
    (q r output : TensorId) (left : Nat) : (rejoining q r output labels joint left).kept = labels := by
  have free : freeLabels (labels.take left ++ [joint] ++ joint :: labels.drop left) = labels := by
    rw [freeLabels_joint (by rwa [List.take_append_drop]), List.take_append_drop]
  simpa [rejoining, joining] using free

/-- Two tensors that are labelled axis by axis are contracted into the next one. -/
theorem contract_pair {a b : Operand} (below : a.tensor < b.tensor)
    (first : s.ranks.get? a.tensor = some a.labels.length) (second : s.ranks.get? b.tensor = some b.labels.length) :
    ∃ c events, (joining [a, b] s.nextTensor (List.cons_ne_nil _ _)).canonical = .ok c ∧
      s.contract [[a.tensor, b.tensor]] (.ofList [(a.tensor, a.labels), (b.tensor, b.labels)]) =
        .ok ([s.nextTensor], s.commit (planFor c), events) := by
  have apart : b.tensor ≠ a.tensor := by lia
  have found : [a.tensor, b.tensor].mapM
      (s.planOperand (.ofList [(a.tensor, a.labels), (b.tensor, b.labels)])) = .ok [a, b] := by
    refine Outcome.mapM_eq_ok.mpr (.cons ?_ (.cons ?_ .nil))
    · exact planOperand_iff.mpr ⟨rfl, by simp [IntMap.ofList, IntMap.get?_insert, apart], first⟩
    · exact planOperand_iff.mpr ⟨rfl, by simp [IntMap.ofList, IntMap.get?_insert], second⟩
  obtain ⟨c, renamed, planned⟩ := planGroup_of_operands found (List.cons_ne_nil _ _) s.nextTensor
  obtain ⟨-, -, output, -⟩ := Contraction.canonical_eq_ok renamed
  refine ⟨c, appendedEvents [planFor c], renamed, ?_⟩
  simp only [contract, Grouping.mergeOverlapping_pair below, planGroups, planned, bind, Except.bind]
  simp [planFor, Operation.outputs, output, joining, commitAll]

/-- The factors of a split can be contracted over their bond, whatever the labels, into a
new tensor of the rank that was split. -/
theorem contract_factors {split : Split} {labels : List Label} {joint : Label} (sound : s.Sound) (ranked : s.Ranked)
    (listed : .split split ∈ s.program.operations) (below : split.q < split.r)
    (count : labels.length = split.rank) (nodup : (joint :: labels).Nodup) :
    ∃ c events, (rejoining split.q split.r s.nextTensor labels joint split.left).canonical = .ok c ∧
      s.serve (.contract [[split.q, split.r]]
        (.ofList [(split.q, labels.take split.left ++ [joint]), (split.r, joint :: labels.drop split.left)])) =
        .ok (.tensors [s.nextTensor], s.commit (planFor c), events) ∧
      (s.commit (planFor c)).rank s.nextTensor = .ok split.rank := by
  obtain ⟨ofQ, ofR⟩ := (ranked _ listed).factors
  have within := split.left_lt.le
  obtain ⟨c, events, renamed, contracted⟩ := contract_pair (s := s)
    (a := ⟨split.q, labels.take split.left ++ [joint]⟩) (b := ⟨split.r, joint :: labels.drop split.left⟩) below
    (by simp [ofQ, count, within]) (by simp [ofR, count, Split.right])
  have served : s.serve (.contract [[split.q, split.r]]
      (.ofList [(split.q, labels.take split.left ++ [joint]), (split.r, joint :: labels.drop split.left)])) =
      .ok (.tensors [s.nextTensor], s.commit (planFor c), events) := by
    rw [serve, contracted]
    rfl
  refine ⟨c, events, renamed, served, rank_eq_ok.mpr ?_⟩
  obtain ⟨-, rankedJoined⟩ := serve_ranked sound ranked served rfl (by simp)
  obtain ⟨-, kept, output, -⟩ := Contraction.canonical_eq_ok renamed
  have produced := (rankedJoined (.contraction c) (List.mem_append_right _ (List.mem_singleton_self _))).contracted
  have free : (rejoining split.q split.r s.nextTensor labels joint split.left).kept = labels :=
    rejoining_kept nodup ..
  rw [output, kept, List.length_map] at produced
  exact produced.trans (congrArg some ((congrArg List.length free).trans count))

section Shapes
variable {p : Program} {given : GivenShapes Extent} {table : ShapeTable Extent} {shape : Shape Extent}

/-- The axes of a turned tensor are those of the tensor, in the order of the permutation. -/
theorem Turned.permutes {turned : TensorId} (axes : Turned p.operations tensor permutation turned)
    (single : SingleAssignment p.operations) (worked : ShapeTable.infer p given = .ok table)
    (known : table.shapes.get? turned = some shape) (sized : shape.length = permutation.length) :
    ∃ original, table.shapes.get? tensor = some original ∧ original.length = permutation.length ∧
      ∀ (i : Nat) (axis : Int), permutation[i]? = some axis → shape[i]? = original[axis.toNat]? := by
  cases axes with
  | inPlace identity =>
    refine ⟨shape, known, sized, fun i axis entry => ?_⟩
    rw [of_decide_eq_true identity, identityPermutation, List.getElem?_map, Option.map_eq_some_iff] at entry
    obtain ⟨j, found, rfl⟩ := entry
    obtain ⟨-, rfl⟩ := List.getElem?_eq_some_iff.mp found
    simp
  | transposed t listed input order =>
    obtain ⟨original, ofInput, ranked, ofOutput⟩ := ShapeTable.infer_transposition single worked listed
    cases Option.some.inj (known.symm.trans ofOutput)
    refine ⟨original, input ▸ ofInput, by rw [ranked, Transposition.rank, order], fun i axis entry => ?_⟩
    exact t.getElem?_arrange ranked (order ▸ entry)

/-- Contracting two factors over the bond between them restores the axes that they share out. -/
theorem rejoined_shape {q r output : TensorId} {labels : List Label} {joint : Label} {bond : Extent} {c : Contraction}
    (nodup : (joint :: labels).Nodup) (sized : labels.length = shape.length)
    (ofQ : table.shapes.get? q = some (shape.take left ++ [bond]))
    (ofR : table.shapes.get? r = some (bond :: shape.drop left))
    (renamed : (rejoining q r output labels joint left).canonical = .ok c)
    (stationary : table.contract c = .ok table) : table.shapes.get? output = some shape := by
  obtain ⟨extent, extents⟩ := exists_map_eq bond nodup (r := bond :: shape) (by simpa using sized)
  obtain ⟨ofJoint, ofLabels⟩ := List.cons.inj extents
  have shaped : ∀ operand ∈ (rejoining q r output labels joint left).operands,
      table.shapes.get? operand.tensor = some (operand.labels.map extent) := by
    simp [rejoining, joining, ofQ, ofR, List.map_take, List.map_drop, ofLabels, ofJoint]
  -- The labels of the request can be used, since canonical ones lead to the same shapes.
  have contracted := (ShapeTable.contract_canonical table renamed).ok_iff.mp stationary
  have final : table = table.assign output shape := by
    have assigned := ShapeTable.contract_output shaped contracted
    rwa [rejoining_kept nodup, ofLabels] at assigned
  rw [final, ShapeTable.get?_assign, if_pos rfl]

/-- A program that turns, splits and rejoins a tensor gives the result its axes. -/
theorem restored_axes {split : Split} {output : TensorId} {labels : List Label} {joint : Label} {c : Contraction}
    (single : SingleAssignment p.operations) (worked : ShapeTable.infer p given = .ok table)
    (axes : Turned p.operations tensor permutation split.input) (divides : .split split ∈ p.operations)
    (joins : .contraction c ∈ p.operations)
    (renamed : (rejoining split.q split.r output labels joint split.left).canonical = .ok c)
    (nodup : (joint :: labels).Nodup) (count : labels.length = split.rank) (sized : permutation.length = split.rank) :
    ∃ shape restored, table.shapes.get? tensor = some shape ∧ table.shapes.get? output = some restored ∧
      shape.length = split.rank ∧ restored.length = split.rank ∧
      ∀ (i : Nat) (axis : Int), permutation[i]? = some axis → restored[i]? = shape[axis.toNat]? := by
  obtain ⟨restored, ofInput, ranked, ofQ, ofR⟩ := ShapeTable.infer_split single worked divides
  have ofOutput := rejoined_shape nodup (count.trans ranked.symm) ofQ ofR renamed
    (ShapeTable.infer_stationary single worked joins)
  obtain ⟨shape, ofTensor, length, each⟩ := axes.permutes single worked ofInput (ranked.trans sized.symm)
  exact ⟨shape, restored, ofTensor, ofOutput, length.trans sized, ranked, each⟩

end Shapes

/-- A split followed by the contraction of its factors over their bond succeeds, whatever
the labels, and gives one new tensor. Its shape is that of the tensor that was split, with
its axes permuted; and shapes can be worked out. -/
theorem contract_restores_split (name : String) (requests : List Request) (tensor : TensorId) (rank left : Nat)
    (permutation : List Int) (labels : List Label) (joint : Label)
    (indirect : ∀ request ∈ requests, request.isDirect = false)
    (known : ((start name).run requests).rank tensor = .ok rank)
    (order : permutation.Perm ((List.range rank).map Int.ofNat)) (low : 1 ≤ left) (high : left < rank)
    (count : labels.length = rank) (nodup : (joint :: labels).Nodup) :
    ∃ q r divided events, ((start name).run requests).serve (.split tensor permutation left) =
        .ok (.tensors [q, r], divided, events) ∧
      ∃ o joined events', divided.serve (.contract [[q, r]]
          (.ofList [(q, labels.take left ++ [joint]), (r, joint :: labels.drop left)])) =
          .ok (.tensors [o], joined, events') ∧
        divided.ranks.contains o = false ∧ joined.rank o = .ok rank ∧
        (∃ table, ShapeTable.infer joined.program [] = .ok table) ∧
        ∀ given table, ShapeTable.infer joined.program given = .ok table →
          ∃ shape restored, table.shape tensor = .ok shape ∧ table.shape o = .ok restored ∧
            shape.length = rank ∧ restored.length = rank ∧
            ∀ (i : Nat) (axis : Int), permutation[i]? = some axis → restored[i]? = shape[axis.toNat]? := by
  obtain ⟨sound, ranked⟩ := run_induction (P := Ranked) start_ranked
    (fun sound ranked change => change.ranked sound ranked) indirect (start_sound name) (start_ranked name)
  generalize (start name).run requests = s at sound ranked known ⊢
  obtain ⟨split, divided, events, done, axes, listed, rfl, rfl, below⟩ :=
    split_divides (rank_eq_ok.mp known) order low high
  have first : s.serve (.split tensor permutation split.left) =
      .ok (.tensors [split.q, split.r], divided, events) := by
    rw [serve, done]
    rfl
  obtain ⟨soundDivided, rankedDivided⟩ := serve_ranked sound ranked first rfl (by simp)
  obtain ⟨c, events', renamed, second, size⟩ :=
    contract_factors soundDivided rankedDivided listed below count nodup
  obtain ⟨soundJoined, rankedJoined⟩ := serve_ranked soundDivided rankedDivided second rfl (by simp)
  refine ⟨split.q, split.r, divided, events, first, divided.nextTensor, divided.commit (planFor c), events', second,
    ?_, size, ?_, fun given table worked => ?_⟩
  · rw [Bool.eq_false_iff, ne_eq, soundDivided.registered, soundDivided.nextTensor]
    lia
  · obtain ⟨table, run, -⟩ := ShapeTable.run_from_nothing soundJoined.single rankedJoined
    exact ⟨table, run⟩
  · obtain ⟨shape, restored, ofTensor, ofOutput, sized, length, each⟩ :=
      restored_axes soundJoined.single worked (axes.mono fun op member => List.mem_append_left _ member)
        (List.mem_append_left _ listed) (List.mem_append_right _ (List.mem_singleton_self _)) renamed nodup count
        (by simpa using order.length_eq)
    exact ⟨shape, restored, ShapeTable.shape_eq_ok.mpr ofTensor, ShapeTable.shape_eq_ok.mpr ofOutput, sized, length,
      each⟩

/-- A tensor of three axes, split after its axes have been turned round. -/
theorem contract_restores_split_turned :
    ∃ q r divided events, ((start "f").run [.addTensor 3]).serve (.split 0 [2, 0, 1] 1) =
        .ok (.tensors [q, r], divided, events) ∧
      ∃ o joined events', divided.serve (.contract [[q, r]] (.ofList [(q, [7, -1]), (r, [-1, 4, 5])])) =
          .ok (.tensors [o], joined, events') ∧
        ∃ table shape restored, ShapeTable.infer joined.program [] = .ok table ∧ table.shape 0 = .ok shape ∧
          table.shape o = .ok restored ∧ restored[0]? = shape[2]? := by
  obtain ⟨q, r, divided, events, first, o, joined, events', second, -, -, ⟨table, worked⟩, axes⟩ :=
    contract_restores_split "f" [.addTensor 3] 0 3 1 [2, 0, 1] [7, 4, 5] (-1) (by decide) rfl (by decide) (by decide)
      (by decide) rfl (by decide)
  obtain ⟨shape, restored, ofTensor, ofOutput, -, -, each⟩ := axes [] table worked
  exact ⟨q, r, divided, events, first, o, joined, events', second, table, shape, restored, worked, ofTensor, ofOutput,
    each 0 2 rfl⟩

end Session
end TensorNetwork
