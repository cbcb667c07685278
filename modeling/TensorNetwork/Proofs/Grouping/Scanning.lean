import TensorNetwork.Proofs.Grouping.Piecewise

/-! Merging by scans. The first group that is left absorbs the groups which it meets, in
one scan over the others after another until a scan changes nothing, and the merged group
is done; then the next group that is left goes on. What is merged so are the lists that
merging group by group gives, in the same order. -/
namespace TensorNetwork.Grouping

/-- A scan under way: the union so far, the groups that it did not meet, and whether it
has grown. -/
structure Scan where
  union : List TensorId
  skipped : List (List TensorId)
  changed : Bool

namespace Scan

/-- The union absorbs a group that it meets, and meets the next one with it. -/
def visit (s : Scan) (group : List TensorId) : Scan :=
  if overlaps s.union group then ⟨s.union ++ group, s.skipped, true⟩
  else ⟨s.union, s.skipped ++ [group], s.changed⟩

theorem visit_cases (s : Scan) (group : List TensorId) :
    overlaps s.union group = true ∧ s.visit group = ⟨s.union ++ group, s.skipped, true⟩ ∨
      overlaps s.union group = false ∧ s.visit group = ⟨s.union, s.skipped ++ [group], s.changed⟩ := by
  unfold visit
  cases overlaps s.union group <;> simp

/-- One scan over the groups that are left. -/
def ofGroups (union : List TensorId) (remaining : List (List TensorId)) : Scan :=
  remaining.foldl visit ⟨union, [], false⟩

theorem stays_changed {s : Scan} (changed : s.changed = true) (remaining : List (List TensorId)) :
    (remaining.foldl visit s).changed = true := by
  induction remaining generalizing s with
  | nil => exact changed
  | cons group rest ih =>
    apply ih
    rcases s.visit_cases group with ⟨-, visited⟩ | ⟨-, visited⟩
    · rw [visited]
    · rw [visited, changed]

/-- No group is skipped twice. -/
theorem length_skipped_le (s : Scan) (remaining : List (List TensorId)) :
    (remaining.foldl visit s).skipped.length ≤ s.skipped.length + remaining.length := by
  induction remaining generalizing s with
  | nil => exact Nat.le_refl _
  | cons group rest ih =>
    have later := ih (s.visit group)
    rw [List.foldl_cons, List.length_cons]
    rcases s.visit_cases group with ⟨-, visited⟩ | ⟨-, visited⟩
    · have skipped : (s.visit group).skipped.length = s.skipped.length := by rw [visited]
      omega
    · have skipped : (s.visit group).skipped.length = s.skipped.length + 1 := by simp [visited]
      omega

/-- A scan either absorbs a group or meets none and skips them all. -/
theorem absorbs_or_skips (s : Scan) (remaining : List (List TensorId)) :
    (remaining.foldl visit s).skipped.length < s.skipped.length + remaining.length ∧
        (remaining.foldl visit s).changed = true ∨
      (∀ group ∈ remaining, overlaps s.union group = false) ∧
        remaining.foldl visit s = ⟨s.union, s.skipped ++ remaining, s.changed⟩ := by
  induction remaining generalizing s with
  | nil => exact .inr ⟨nofun, by simp⟩
  | cons group rest ih =>
    rw [List.foldl_cons, List.length_cons]
    rcases s.visit_cases group with ⟨-, visited⟩ | ⟨apart, visited⟩
    · have skipped : (s.visit group).skipped.length = s.skipped.length := by rw [visited]
      have later := length_skipped_le (s.visit group) rest
      have changed : (s.visit group).changed = true := by rw [visited]
      exact .inl ⟨by omega, stays_changed changed rest⟩
    · have skipped : (s.visit group).skipped.length = s.skipped.length + 1 := by simp [visited]
      rcases ih (s.visit group) with ⟨shorter, changed⟩ | ⟨others, skips⟩
      · exact .inl ⟨by omega, changed⟩
      · rw [visited] at others skips
        refine .inr ⟨List.forall_mem_cons.mpr ⟨apart, others⟩, ?_⟩
        rw [visited, skips, List.append_assoc, List.singleton_append]

/-- What a whole scan comes to. -/
theorem ofGroups_cases (union : List TensorId) (remaining : List (List TensorId)) :
    (ofGroups union remaining).skipped.length < remaining.length ∧ (ofGroups union remaining).changed = true ∨
      (∀ group ∈ remaining, overlaps union group = false) ∧ ofGroups union remaining = ⟨union, remaining, false⟩ := by
  simpa [ofGroups] using absorbs_or_skips ⟨union, [], false⟩ remaining

theorem ofGroups_shorter {union : List TensorId} {remaining : List (List TensorId)}
    (changed : (ofGroups union remaining).changed = true) :
    (ofGroups union remaining).skipped.length < remaining.length := by
  rcases ofGroups_cases union remaining with ⟨shorter, -⟩ | ⟨-, skips⟩
  · exact shorter
  · rw [skips] at changed
    cases changed

end Scan

/-- Scans are repeated until one changes nothing, since what a union absorbs may meet
groups that were skipped before. -/
def saturate (union : List TensorId) (remaining : List (List TensorId)) : List TensorId × List (List TensorId) :=
  let scanned := Scan.ofGroups union remaining
  if _changed : scanned.changed then saturate scanned.union scanned.skipped
  else (scanned.union, scanned.skipped)
termination_by remaining.length
decreasing_by exact Scan.ofGroups_shorter _changed

theorem length_saturate (union : List TensorId) (remaining : List (List TensorId)) :
    (saturate union remaining).2.length ≤ remaining.length := by
  fun_induction saturate union remaining with
  | case1 union remaining scanned changed ih => exact ih.trans (Scan.ofGroups_shorter changed).le
  | case2 union remaining scanned unchanged =>
    rcases Scan.ofGroups_cases union remaining with ⟨shorter, -⟩ | ⟨-, skips⟩
    · exact shorter.le
    · have done : scanned = ⟨union, remaining, false⟩ := skips
      rw [done]

/-- Each group that is left is saturated in turn. -/
def mergeByScans : List (List TensorId) → List (List TensorId)
  | [] => []
  | group :: rest =>
      let merged := saturate group rest
      ascending merged.1 :: mergeByScans merged.2
termination_by remaining => remaining.length
decreasing_by exact Nat.lt_succ_of_le (length_saturate group rest)

/-- A group that meets the first one may be brought there. -/
theorem condenses_absorbed {union group : List TensorId} (front : List (List TensorId))
    (met : overlaps union group = true) :
    Condenses (union :: front ++ [group]) ((union ++ group) :: front) id
      (fun i j => i = j ∨ i = 0 ∧ j = front.length + 1) where
  near_self _ := .inl rfl
  near_connected := by
    rintro i j (rfl | ⟨rfl, rfl⟩)
    · exact .refl
    · obtain ⟨tensor, here, there⟩ := overlaps_iff.mp met
      exact .single ⟨tensor, ⟨union, rfl, here⟩, ⟨group, by simp, there⟩⟩
  held := by
    intro tensor k inside
    simp only [id, heldAt_snoc]
    cases k with
    | zero =>
      constructor
      · rintro ⟨_, ⟨⟩, member⟩
        rcases List.mem_append.mp member with here | there
        · exact ⟨0, .inl rfl, .inl ⟨union, rfl, here⟩⟩
        · exact ⟨front.length + 1, .inr ⟨rfl, rfl⟩, .inr ⟨rfl, there⟩⟩
      · rintro ⟨i, rfl | ⟨-, rfl⟩, held | ⟨last, there⟩⟩
        · obtain ⟨_, ⟨⟩, here⟩ := held
          exact ⟨_, rfl, List.mem_append_left _ here⟩
        · cases last
        · exact absurd held.lt_length (Nat.lt_irrefl _)
        · exact ⟨_, rfl, List.mem_append_right _ there⟩
    | succ k =>
      constructor
      · exact fun held => ⟨k + 1, .inl rfl, .inl held⟩
      · rintro ⟨i, rfl | ⟨⟨⟩, -⟩, held | ⟨last, -⟩⟩
        · exact held
        · exact absurd last (Nat.ne_of_lt inside)
  covers := by
    intro i inside
    simp only [List.cons_append, List.length_cons, List.length_append, List.length_nil] at inside ⊢
    by_cases last : i = front.length + 1
    · exact ⟨0, by omega, .inr ⟨rfl, last⟩, Nat.zero_le i⟩
    · exact ⟨i, by omega, .inl rfl, Nat.le_refl i⟩
  bounded := by
    intro k inside
    simp only [List.cons_append, List.length_cons, List.length_append, List.length_nil, id] at inside ⊢
    omega
  ascending := fun below _ => below

/-- The union absorbs a group that it meets, wherever the group stands. -/
theorem mergeOverlapping_absorbed {union group : List TensorId} (front back : List (List TensorId))
    (met : overlaps union group = true) :
    mergeOverlapping (union :: front ++ group :: back) = mergeOverlapping ((union ++ group) :: front ++ back) := by
  have brought := mergeOverlapping_condensed (condenses_absorbed front met)
  rw [List.append_cons]
  simp only [mergeOverlapping, List.foldl_append] at brought ⊢
  rw [brought]

/-- A group that meets no other is a merged group of its own. -/
theorem mergeOverlapping_apart {union : List TensorId} {groups : List (List TensorId)}
    (apart : ∀ group ∈ groups, overlaps union group = false) :
    mergeOverlapping (union :: groups) = ascending union :: mergeOverlapping groups := by
  induction groups using List.reverseRecOn with
  | nil => rfl
  | append_singleton groups group ih =>
    have earlier := ih fun other member => apart other (List.mem_append_left _ member)
    have separate : overlaps group (ascending union) = false := by
      rw [Bool.eq_false_iff]
      intro met
      obtain ⟨tensor, there, here⟩ := overlaps_iff.mp met
      have meets := overlaps_iff.mpr ⟨tensor, mem_ascending.mp here, there⟩
      rw [apart group (List.mem_append_right _ List.mem_cons_self)] at meets
      cases meets
    rw [← List.cons_append, mergeOverlapping_snoc, earlier, mergeOverlapping_snoc, join, separate]
    rfl

namespace Scan

/-- A scan keeps what merging comes to. -/
theorem mergeOverlapping_visits (s : Scan) (remaining : List (List TensorId)) :
    let after := remaining.foldl visit s
    mergeOverlapping (after.union :: after.skipped) = mergeOverlapping (s.union :: s.skipped ++ remaining) := by
  induction remaining generalizing s with
  | nil => simp
  | cons group rest ih =>
    refine (ih (s.visit group)).trans ?_
    rcases s.visit_cases group with ⟨met, visited⟩ | ⟨-, visited⟩
    · rw [visited, mergeOverlapping_absorbed _ _ met]
    · simp [visited]

end Scan

/-- Saturation keeps what merging comes to, and leaves only groups that the union does not meet. -/
theorem saturate_spec (union : List TensorId) (remaining : List (List TensorId)) :
    mergeOverlapping ((saturate union remaining).1 :: (saturate union remaining).2) =
        mergeOverlapping (union :: remaining) ∧
      ∀ group ∈ (saturate union remaining).2, overlaps (saturate union remaining).1 group = false := by
  fun_induction saturate union remaining with
  | case1 union remaining scanned changed ih =>
    exact ⟨ih.1.trans (Scan.mergeOverlapping_visits ⟨union, [], false⟩ remaining), ih.2⟩
  | case2 union remaining scanned unchanged =>
    rcases Scan.ofGroups_cases union remaining with ⟨-, changed⟩ | ⟨apart, skips⟩
    · exact absurd changed unchanged
    · have done : scanned = ⟨union, remaining, false⟩ := skips
      rw [done]
      exact ⟨rfl, apart⟩

/-- Merging by scans gives the same lists in the same order as merging group by group. -/
theorem mergeByScans_eq_mergeOverlapping (groups : List (List TensorId)) :
    mergeByScans groups = mergeOverlapping groups := by
  fun_induction mergeByScans groups with
  | case1 => rfl
  | case2 group rest merged ih =>
    obtain ⟨kept, apart⟩ := saturate_spec group rest
    rw [ih, ← kept, mergeOverlapping_apart apart]

end TensorNetwork.Grouping
