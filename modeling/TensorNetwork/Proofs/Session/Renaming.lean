import TensorNetwork.Proofs.Session.Atomic
import TensorNetwork.Proofs.Session.Contract

/-! Contractions do not depend on the names of labels. Two ways to label a group that
differ by a renaming pass and fail the same checks, keep corresponding labels and have one
canonical form; the renaming may be another for each merged group, since groups that are
not merged share no tensor and are planned apart. -/
namespace TensorNetwork

namespace Session

/-- A renaming that keeps the labels of a group apart turns its subscripts into others. -/
structure Carries (given other : IntMap (List Label)) (group : List TensorId) (rename : Label → Label) : Prop where
  apart : ∀ a ∈ groupLabels given group, ∀ b ∈ groupLabels given group, rename a = rename b → a = b
  carried : ∀ tensor ∈ group, other.get? tensor = (given.get? tensor).map (List.map rename)

variable {s : Session} {given other : IntMap (List Label)} {group : List TensorId} {rename : Label → Label}

/-- Renaming keeps the number of labels, which is all that is checked of them. -/
theorem planOperand_renamed {tensor : TensorId}
    (carried : other.get? tensor = (given.get? tensor).map (List.map rename)) :
    s.planOperand other tensor = (s.planOperand given tensor).map (Operand.relabel rename) := by
  rw [planOperand, planOperand, carried]
  cases given.get? tensor with
  | none => rfl
  | some labels =>
    simp only [Option.map_some, List.length_map]
    cases s.checkRank tensor labels.length <;> rfl

theorem joining_renamed {operands : List Operand} {output : TensorId} {nonempty : operands ≠ []}
    {renamedNonempty : operands.map (Operand.relabel rename) ≠ []} {c d : Contraction}
    (apart : ∀ a ∈ operands.flatMap Operand.labels, ∀ b ∈ operands.flatMap Operand.labels,
      rename a = rename b → a = b)
    (first : (joining operands output nonempty).canonical = .ok c)
    (second : (joining (operands.map (Operand.relabel rename)) output renamedNonempty).canonical = .ok d) :
    c = d := by
  refine Contraction.canonical_of_renaming first second ?_ rfl apart ?_ ?_
  · simp [Contraction.inputs, joining, Operand.relabel]
  · simp [Contraction.subscripts, joining, Operand.relabel]
  · have labels : (operands.map (Operand.relabel rename)).flatMap Operand.labels =
        (operands.flatMap Operand.labels).map rename := by
      rw [List.flatMap_map, List.map_flatMap]
      rfl
    show (freeLabels (operands.flatMap Operand.labels)).map rename =
      freeLabels ((operands.map (Operand.relabel rename)).flatMap Operand.labels)
    rw [labels, freeLabels_map apart]

theorem planGroup_renamed {output : TensorId} (carries : Carries given other group rename) :
    s.planGroup other group output = s.planGroup given group output := by
  have operandsRenamed : group.mapM (s.planOperand other) =
      (group.mapM (s.planOperand given)).map (List.map (Operand.relabel rename)) :=
    Outcome.mapM_map fun tensor member => planOperand_renamed (carries.carried tensor member)
  cases found : group.mapM (s.planOperand given) with
  | error e =>
    rw [found] at operandsRenamed
    rw [planGroup, planGroup, found, operandsRenamed]
    rfl
  | ok operands =>
    rw [found] at operandsRenamed
    by_cases nonempty : operands = []
    · subst nonempty
      rw [planGroup, planGroup, found, operandsRenamed]
      rfl
    · have renamedNonempty : operands.map (Operand.relabel rename) ≠ [] := by simpa using nonempty
      have apart := carries.apart
      rw [← planOperands_labels found] at apart
      obtain ⟨c, first, planned⟩ := planGroup_of_operands found nonempty output
      obtain ⟨d, second, renamedPlanned⟩ := planGroup_of_operands operandsRenamed renamedNonempty output
      rw [planned, renamedPlanned, joining_renamed apart first second]

theorem planGroups_renamed {groups : List (List TensorId)} (output : TensorId)
    (carries : ∀ group ∈ groups, ∃ rename, Carries given other group rename) :
    s.planGroups other groups output = s.planGroups given groups output := by
  induction groups generalizing output with
  | nil => rfl
  | cons group rest ih =>
    obtain ⟨rename, here⟩ := carries group List.mem_cons_self
    have later := ih (output + 1) fun g member => carries g (List.mem_cons_of_mem _ member)
    rw [planGroups, planGroups, planGroup_renamed here, later]

theorem contract_renamed {groups : List (List TensorId)}
    (carries : ∀ group ∈ Grouping.mergeOverlapping groups, ∃ rename, Carries given other group rename) :
    s.contract groups other = s.contract groups given := by
  rw [contract, contract, planGroups_renamed s.nextTensor carries]

end Session

namespace Edit

/-- Where a renaming for each merged group carries one labelling to another, both
contractions give the same answer and leave the same desk, or fail for the same cause. -/
theorem contract_ignores_label_names (desk : Desk) (groups : List (List TensorId))
    (given other : IntMap (List Label))
    (carries : ∀ group ∈ Grouping.mergeOverlapping groups, ∃ rename, Session.Carries given other group rename) :
    (perform (.contract groups given)).run desk = (perform (.contract groups other)).run desk := by
  rw [run_perform, run_perform, Session.serve, Session.serve, Session.contract_renamed carries]

/-- A tensor with a trace is joined to another while a third stands alone. The labels of
the first group are renamed among themselves, and one that both groups use is renamed in
another way in the second. -/
theorem contract_ignores_label_names_trace :
    let desk := (Desk.start "f").run [.addTensor 3, .addTensor 2, .addTensor 1]
    let given : IntMap (List Label) := .ofList [(0, [7, 8, 8]), (1, [7, 9]), (2, [7])]
    let other : IntMap (List Label) := .ofList [(0, [9, 8, 8]), (1, [9, 7]), (2, [-2])]
    ∃ after, (perform (.contract [[0, 1], [2]] given)).run desk = .ok (.tensors [3, 4]) after ∧
      (perform (.contract [[0, 1], [2]] other)).run desk = .ok (.tensors [3, 4]) after := by
  intro desk given other
  have carries : ∀ group ∈ Grouping.mergeOverlapping [[0, 1], [2]],
      ∃ rename, Session.Carries given other group rename := by
    intro group member
    have either : group = [0, 1] ∨ group = [2] := by
      simpa using (show group ∈ [[0, 1], [2]] from member)
    rcases either with rfl | rfl
    · exact ⟨fun label => 16 - label, fun a _ b _ same => by lia, by decide⟩
    · exact ⟨fun label => label - 9, fun a _ b _ same => by lia, by decide⟩
  refine ⟨_, rfl, ?_⟩
  rw [← contract_ignores_label_names desk [[0, 1], [2]] given other carries]
  rfl

end Edit
end TensorNetwork
