import TensorNetwork.Proofs.Distinct
import TensorNetwork.Proofs.Grouping.Links
import TensorNetwork.Proofs.Ordered
import TensorNetwork.Proofs.Outcome

/-! Merging finds the connected components of groups. The lists merged so far are
those of the classes of the groups seen so far, in the order of the first groups
of the classes; joining one more group keeps this so. -/
namespace TensorNetwork.Grouping

theorem mem_ascending {group : List TensorId} {tensor : TensorId} :
    tensor ∈ ascending group ↔ tensor ∈ group := by
  rw [ascending, Ordered.mem_sort, List.mem_eraseDups]

theorem ascending_pairwise (group : List TensorId) : (ascending group).Pairwise (· < ·) := by
  have sorted : (ascending group).Pairwise fun a b => decide (a ≤ b) = true := by
    apply Ordered.sort_pairwise
    · intro a b
      simpa using Int.le_total a b
    · intro a b c below above
      simp only [decide_eq_true_eq] at below above ⊢
      exact Int.le_trans below above
  have nodup : (ascending group).Nodup := (Ordered.sort_perm _ _).nodup_iff.mpr (nodup_eraseDups group)
  refine (sorted.and nodup).imp fun both => ?_
  exact Int.lt_iff_le_and_ne.mpr ⟨of_decide_eq_true both.1, both.2⟩

theorem overlaps_iff {a b : List TensorId} : overlaps a b = true ↔ ∃ tensor ∈ a, tensor ∈ b := by
  simp [overlaps]

/-- What is related to a divided list is divided in the same way. -/
theorem forall₂_split {α β : Type} {R : α → β → Prop} {l : List α} {front back : List β} {b : β}
    (related : List.Forall₂ R l (front ++ b :: back)) :
    ∃ early a late, l = early ++ a :: late ∧ List.Forall₂ R early front ∧ R a b ∧ List.Forall₂ R late back := by
  have fronts := List.forall₂_take_append _ _ _ related
  have backs := List.forall₂_drop_append _ _ _ related
  cases split : l.drop front.length with
  | nil =>
    rw [split] at backs
    cases backs
  | cons a late =>
    rw [split] at backs
    cases backs with
    | cons here backs => exact ⟨_, a, late, by rw [← split, List.take_append_drop], fronts, here, backs⟩

/-- All tensors of a class, in ascending order. -/
structure Component (groups : List (List TensorId)) (i : Nat) (merged : List TensorId) : Prop where
  ascending : merged.Pairwise (· < ·)
  members : ∀ tensor, tensor ∈ merged ↔ ∃ j, Connected groups i j ∧ HeldAt groups tensor j

/-- One list for each class, in the order of their first positions. -/
structure Components (groups : List (List TensorId)) (leaders : List Nat) (merged : List (List TensorId)) :
    Prop where
  ascending : leaders.Pairwise (· < ·)
  leads : ∀ i, i ∈ leaders ↔ Leads groups i
  components : List.Forall₂ (Component groups) leaders merged

section Extension
variable {groups : List (List TensorId)} {group merged : List TensorId} {i : Nat}

theorem Component.overlaps_iff_touches (component : Component groups i merged) :
    overlaps group merged = true ↔ Touches groups group i := by
  simp only [overlaps_iff, component.members, Touches]
  constructor
  · rintro ⟨tensor, member, j, connected, held⟩
    exact ⟨j, connected, tensor, member, held⟩
  · rintro ⟨j, connected, tensor, member, held⟩
    exact ⟨tensor, member, j, connected, held⟩

/-- A class that the further group does not touch stays as it is. -/
theorem Component.kept (component : Component groups i merged) (bound : i < groups.length)
    (apart : ¬ Touches groups group i) : Component (groups ++ [group]) i merged := by
  have outside : ¬ Gathers groups group i := by
    rintro (rfl | touches)
    · exact Nat.lt_irrefl _ bound
    · exact apart touches
  refine ⟨component.ascending, fun tensor => (component.members tensor).trans ?_⟩
  constructor
  · rintro ⟨j, connected, held⟩
    exact ⟨j, connected_snoc.mpr (.inl connected), heldAt_snoc.mpr (.inl held)⟩
  · rintro ⟨j, connected, held⟩
    have old := (connected_snoc.mp connected).resolve_right fun gathered => outside gathered.1
    rcases heldAt_snoc.mp held with held | ⟨rfl, -⟩
    · exact ⟨j, old, held⟩
    · exact absurd (old.lt_length bound) (Nat.lt_irrefl _)

/-- The class of the further group holds its tensors and those of the classes it
touches. -/
theorem component_gathered (here : Gathers groups group i) {gathered : List TensorId}
    (members : ∀ tensor, tensor ∈ gathered ↔
      tensor ∈ group ∨ ∃ j, Touches groups group j ∧ HeldAt groups tensor j) :
    Component (groups ++ [group]) i (Grouping.ascending gathered) := by
  refine ⟨ascending_pairwise gathered, fun tensor => ?_⟩
  rw [mem_ascending, members]
  constructor
  · rintro (member | ⟨j, touches, held⟩)
    · exact ⟨groups.length, connected_snoc.mpr (.inr ⟨here, .inl rfl⟩), heldAt_snoc.mpr (.inr ⟨rfl, member⟩)⟩
    · exact ⟨j, connected_snoc.mpr (.inr ⟨here, .inr touches⟩), heldAt_snoc.mpr (.inl held)⟩
  · rintro ⟨j, connected, held⟩
    have there : Gathers groups group j := by
      rcases connected_snoc.mp connected with old | ⟨-, there⟩
      · exact here.connected old
      · exact there
    rcases heldAt_snoc.mp held with old | ⟨-, member⟩
    · rcases there with rfl | touches
      · exact absurd old.lt_length (Nat.lt_irrefl _)
      · exact .inr ⟨j, touches, old⟩
    · exact .inl member

end Extension

/-- A group that overlaps none of the others is put after them. -/
theorem join_apart {group : List TensorId} {merged : List (List TensorId)}
    (apart : ∀ other ∈ merged, overlaps group other = false) :
    join group merged = merged ++ [ascending group] := by
  induction merged with
  | nil => rfl
  | cons first rest ih =>
    have here := apart first List.mem_cons_self
    rw [join, here, if_neg Bool.false_ne_true, ih fun other member => apart other (List.mem_cons_of_mem _ member)]
    rfl

/-- A group takes the place of the first one that it overlaps. -/
theorem join_at {group first : List TensorId} {front back : List (List TensorId)}
    (apart : ∀ other ∈ front, overlaps group other = false) (hit : overlaps group first = true) :
    join group (front ++ first :: back) =
      front ++ ascending (group ++ first ++ (back.filter (overlaps group)).flatten) ::
        back.filter fun other => !overlaps group other := by
  induction front with
  | nil => rw [List.nil_append, join, if_pos hit, List.nil_append]
  | cons head rest ih =>
    have here := apart head List.mem_cons_self
    rw [List.cons_append, join, here, if_neg Bool.false_ne_true,
      ih fun other member => apart other (List.mem_cons_of_mem _ member)]
    rfl

namespace Components
variable {groups merged : List (List TensorId)} {group : List TensorId} {leaders : List Nat}

theorem exists_merged (parts : Components groups leaders merged) {i : Nat} (leads : Leads groups i) :
    ∃ list ∈ merged, Component groups i list :=
  Outcome.exists_of_forall₂ parts.components ((parts.leads i).mpr leads)

theorem exists_leader (parts : Components groups leaders merged) {list : List TensorId} (member : list ∈ merged) :
    ∃ i, Leads groups i ∧ Component groups i list := by
  obtain ⟨i, found, component⟩ := Outcome.exists_of_forall₂ parts.components.flip member
  exact ⟨i, (parts.leads i).mp found, component⟩

theorem lt_length (parts : Components groups leaders merged) {i : Nat} (member : i ∈ leaders) :
    i < groups.length :=
  ((parts.leads i).mp member).1

/-- A class is touched if its first position is. -/
theorem touching_leader (parts : Components groups leaders merged) {j : Nat} (touches : Touches groups group j) :
    ∃ i ∈ leaders, Touches groups group i ∧ Connected groups j i := by
  obtain ⟨i, leads, connected⟩ := exists_leads touches.lt_length
  exact ⟨i, (parts.leads i).mpr leads, touches.connected connected, connected⟩

/-- A group that touches no class makes one of its own. -/
theorem extend_apart (parts : Components groups leaders merged)
    (apart : ∀ i ∈ leaders, ¬ Touches groups group i) :
    Components (groups ++ [group]) (leaders ++ [groups.length]) (merged ++ [Grouping.ascending group]) := by
  have untouched : ∀ j, ¬ Touches groups group j := by
    intro j touches
    obtain ⟨i, member, touched, -⟩ := parts.touching_leader touches
    exact apart i member touched
  refine ⟨?_, fun i => ?_, ?_⟩
  · refine List.pairwise_append.mpr ⟨parts.ascending, List.pairwise_singleton _ _, fun i member last here => ?_⟩
    exact List.mem_singleton.mp here ▸ parts.lt_length member
  · rw [leads_snoc, List.mem_append, parts.leads, List.mem_singleton]
    refine ⟨fun known => ⟨known, ?_⟩, fun both => both.1⟩
    rintro (rfl | touches) j (rfl | touches')
    · exact Nat.le_refl _
    · exact absurd touches' (untouched j)
    · exact absurd touches (untouched i)
    · exact absurd touches (untouched i)
  · refine List.rel_append ?_ (.cons ?_ .nil)
    · have bounded := (List.forall₂_and_left leaders merged).mpr ⟨fun i => parts.lt_length, parts.components⟩
      exact bounded.imp fun i list both => both.2.kept both.1 (untouched i)
    · exact component_gathered (.inl rfl) fun tensor => by simp [untouched]

/-- The lists that a group overlaps hold the tensors of the classes it touches. -/
theorem mem_touched (parts : Components groups leaders merged) {tensor : TensorId} :
    tensor ∈ (merged.filter (overlaps group)).flatten ↔ ∃ j, Touches groups group j ∧ HeldAt groups tensor j := by
  rw [List.mem_flatten]
  constructor
  · rintro ⟨list, listed, member⟩
    obtain ⟨held, hit⟩ := List.mem_filter.mp listed
    obtain ⟨i, -, component⟩ := parts.exists_leader held
    obtain ⟨j, connected, found⟩ := (component.members tensor).mp member
    exact ⟨j, (component.overlaps_iff_touches.mp hit).connected connected, found⟩
  · rintro ⟨j, touches, found⟩
    obtain ⟨i, leads, connected⟩ := exists_leads touches.lt_length
    obtain ⟨list, held, component⟩ := parts.exists_merged leads
    have hit := component.overlaps_iff_touches.mpr (touches.connected connected)
    exact ⟨list, List.mem_filter.mpr ⟨held, hit⟩, (component.members tensor).mpr ⟨j, connected.symm, found⟩⟩

section Touched
variable {early late : List Nat} {leader : Nat}

/-- The first class that is touched leads all that is gathered. -/
theorem leader_le (parts : Components groups (early ++ leader :: late) merged)
    (apart : ∀ i ∈ early, ¬ Touches groups group i) (touched : Touches groups group leader) {j : Nat}
    (gathers : Gathers groups group j) : leader ≤ j := by
  rcases gathers with rfl | touches
  · exact Nat.le_of_lt touched.lt_length
  · obtain ⟨i, member, touches', connected⟩ := parts.touching_leader touches
    have order : i ≤ j := ((parts.leads i).mp member).2 j connected.symm
    have ascending := (List.pairwise_append.mp parts.ascending).2.1
    rcases List.mem_append.mp member with earlier | onwards
    · exact absurd touches' (apart i earlier)
    · rcases List.mem_cons.mp onwards with rfl | afterwards
      · exact order
      · exact Nat.le_trans (Nat.le_of_lt ((List.pairwise_cons.mp ascending).1 i afterwards)) order

open Classical in
/-- Of the classes that are touched only the first keeps its leader. -/
theorem leads_extended (parts : Components groups (early ++ leader :: late) merged)
    (apart : ∀ i ∈ early, ¬ Touches groups group i) (touched : Touches groups group leader) (i : Nat) :
    i ∈ early ++ leader :: late.filter (fun i => ¬ Touches groups group i) ↔ Leads (groups ++ [group]) i := by
  have old : ∀ {i}, i ∈ early ++ leader :: late → ¬ Touches groups group i → ¬ Gathers groups group i := by
    rintro i member missed (rfl | touches)
    · exact Nat.lt_irrefl _ (parts.lt_length member)
    · exact missed touches
  have ascending := (List.pairwise_append.mp parts.ascending).2.1
  rw [leads_snoc, ← parts.leads]
  simp only [List.mem_append, List.mem_cons, List.mem_filter, decide_eq_true_eq] at old ⊢
  constructor
  · rintro (earlier | rfl | ⟨afterwards, missed⟩)
    · exact ⟨.inl (.inl earlier), fun gathers => absurd gathers (old (.inl earlier) (apart i earlier))⟩
    · exact ⟨.inl (.inr (.inl rfl)), fun _ j => parts.leader_le apart touched⟩
    · exact ⟨.inl (.inr (.inr afterwards)), fun gathers => absurd gathers (old (.inr (.inr afterwards)) missed)⟩
  · rintro ⟨(earlier | rfl | afterwards) | rfl, first⟩
    · exact .inl earlier
    · exact .inr (.inl rfl)
    · refine .inr (.inr ⟨afterwards, fun touches => ?_⟩)
      have above := (List.pairwise_cons.mp ascending).1 i afterwards
      exact absurd (first (.inr touches) leader (.inr touched)) (Nat.not_le.mpr above)
    · exact absurd (first (.inl rfl) leader (.inr touched)) (Nat.not_le.mpr touched.lt_length)

end Touched

/-- A group that touches classes takes the place of the first one. -/
theorem extend_at {front back : List (List TensorId)} {first : List TensorId}
    (parts : Components groups leaders (front ++ first :: back))
    (missed : ∀ other ∈ front, overlaps group other = false) (hit : overlaps group first = true) :
    ∃ next, Components (groups ++ [group]) next
      (front ++ Grouping.ascending (group ++ first ++ (back.filter (overlaps group)).flatten) ::
        back.filter fun other => !overlaps group other) := by
  classical
  obtain ⟨early, leader, late, rfl, fronts, here, backs⟩ := forall₂_split parts.components
  have touched : Touches groups group leader := here.overlaps_iff_touches.mp hit
  have apart : ∀ i ∈ early, ¬ Touches groups group i := by
    intro i member touches
    obtain ⟨other, listed, component⟩ := Outcome.exists_of_forall₂ fronts member
    have overlapping := component.overlaps_iff_touches.mpr touches
    rw [missed other listed] at overlapping
    cases overlapping
  have kept : ∀ {some : List Nat} {lists : List (List TensorId)}, List.Forall₂ (Component groups) some lists →
      (∀ i ∈ some, i ∈ early ++ leader :: late ∧ ¬ Touches groups group i) →
      List.Forall₂ (Component (groups ++ [group])) some lists := by
    intro some lists components untouched
    have both := (List.forall₂_and_left some lists).mpr ⟨untouched, components⟩
    exact both.imp fun i list ⟨⟨member, missed⟩, component⟩ => component.kept (parts.lt_length member) missed
  refine ⟨early ++ leader :: late.filter (fun i => ¬ Touches groups group i), ?_,
    parts.leads_extended apart touched, ?_⟩
  · exact parts.ascending.sublist ((List.Sublist.refl early).append (List.filter_sublist.cons_cons leader))
  · have earlier := kept fronts fun i member => ⟨List.mem_append_left _ member, apart i member⟩
    refine List.rel_append earlier (.cons ?_ ?_)
    · refine component_gathered (.inr touched) fun tensor => ?_
      have none : front.filter (overlaps group) = [] := by simpa [List.filter_eq_nil_iff] using missed
      rw [← parts.mem_touched, List.filter_append, none, List.filter_cons_of_pos hit]
      simp
    · have same : ∀ {i list}, Component groups i list →
          (decide (¬ Touches groups group i) = true ↔ (!overlaps group list) = true) := by
        intro i list component
        rw [decide_eq_true_eq, ← component.overlaps_iff_touches]
        simp
      refine kept (List.rel_filter (fun _ _ component => same component) backs) fun i member => ?_
      obtain ⟨afterwards, missed⟩ := List.mem_filter.mp member
      exact ⟨by simp [afterwards], of_decide_eq_true missed⟩

/-- Joining one more group keeps the lists those of the classes. -/
theorem extend (parts : Components groups leaders merged) (group : List TensorId) :
    ∃ next, Components (groups ++ [group]) next (join group merged) := by
  cases found : merged.find? (overlaps group) with
  | none =>
    have missed : ∀ other ∈ merged, overlaps group other = false := by simpa using found
    rw [join_apart missed]
    refine ⟨_, parts.extend_apart fun i member touches => ?_⟩
    obtain ⟨list, listed, component⟩ := Outcome.exists_of_forall₂ parts.components member
    have hit := component.overlaps_iff_touches.mpr touches
    rw [missed list listed] at hit
    cases hit
  | some first =>
    obtain ⟨hit, front, back, rfl, missed⟩ := List.find?_eq_some_iff_append.mp found
    have apart : ∀ other ∈ front, overlaps group other = false := by simpa using missed
    rw [join_at apart hit]
    exact parts.extend_at apart hit

theorem disjoint (parts : Components groups leaders merged) : merged.Pairwise List.Disjoint := by
  obtain ⟨ascending, leads, components⟩ := parts
  have each := (List.forall₂_and_left leaders merged).mpr ⟨fun i => (leads i).mp, components⟩
  clear components leads
  induction each with
  | nil => exact .nil
  | @cons i list others lists here each ih =>
    obtain ⟨above, later⟩ := List.pairwise_cons.mp ascending
    refine List.pairwise_cons.mpr ⟨fun other listed tensor inside outside => ?_, ih later⟩
    obtain ⟨j, member, leads, component⟩ := Outcome.exists_of_forall₂ each.flip listed
    obtain ⟨k, connected, held⟩ := (here.2.members tensor).mp inside
    obtain ⟨k', connected', held'⟩ := (component.members tensor).mp outside
    have chain : Connected groups i j := (connected.tail ⟨tensor, held, held'⟩).trans connected'.symm
    exact absurd (here.1.eq leads chain) (Nat.ne_of_lt (above j member))

theorem mem_flatten (parts : Components groups leaders merged) {tensor : TensorId} :
    tensor ∈ merged.flatten ↔ tensor ∈ groups.flatten := by
  rw [List.mem_flatten, ← exists_heldAt]
  constructor
  · rintro ⟨list, listed, member⟩
    obtain ⟨i, -, component⟩ := parts.exists_leader listed
    obtain ⟨j, -, held⟩ := (component.members tensor).mp member
    exact ⟨j, held⟩
  · rintro ⟨j, held⟩
    obtain ⟨i, leads, connected⟩ := exists_leads held.lt_length
    obtain ⟨list, listed, component⟩ := parts.exists_merged leads
    exact ⟨list, listed, (component.members tensor).mpr ⟨j, connected.symm, held⟩⟩

/-- Tensors come together exactly if a chain of overlapping groups joins them. -/
theorem together_iff (parts : Components groups leaders merged) {a b : TensorId} :
    (∃ list ∈ merged, a ∈ list ∧ b ∈ list) ↔
      ∃ i j, HeldAt groups a i ∧ Connected groups i j ∧ HeldAt groups b j := by
  constructor
  · rintro ⟨list, listed, first, second⟩
    obtain ⟨k, -, component⟩ := parts.exists_leader listed
    obtain ⟨i, here, held⟩ := (component.members a).mp first
    obtain ⟨j, there, held'⟩ := (component.members b).mp second
    exact ⟨i, j, held, here.symm.trans there, held'⟩
  · rintro ⟨i, j, held, connected, held'⟩
    obtain ⟨k, leads, onwards⟩ := exists_leads held.lt_length
    obtain ⟨list, listed, component⟩ := parts.exists_merged leads
    exact ⟨list, listed, (component.members a).mpr ⟨i, onwards.symm, held⟩,
      (component.members b).mpr ⟨j, onwards.symm.trans connected, held'⟩⟩

end Components

theorem ascending_eq_nil {group : List TensorId} : ascending group = [] ↔ group = [] := by
  simp only [List.eq_nil_iff_forall_not_mem, mem_ascending]

theorem overlaps_nil (group : List TensorId) : overlaps group [] = false := by
  simp [overlaps]

/-- Only a group without tensors adds a list without tensors. -/
theorem count_nil_join (group : List TensorId) (merged : List (List TensorId)) :
    (join group merged).count [] = merged.count [] + [group].count [] := by
  induction merged with
  | nil => simp [join, List.count_singleton, ascending_eq_nil]
  | cons first rest ih =>
    rw [join]
    split
    · rename_i hit
      obtain ⟨tensor, here, there⟩ := overlaps_iff.mp hit
      have group_ne : group ≠ [] := List.ne_nil_of_mem here
      have first_ne : first ≠ [] := List.ne_nil_of_mem there
      have joined : ascending (group ++ first ++ (rest.filter (overlaps group)).flatten) ≠ [] := by
        simp [ascending_eq_nil, group_ne]
      rw [List.count_cons_of_ne joined, List.count_cons_of_ne first_ne, List.count_filter (by simp [overlaps_nil])]
      simp [group_ne]
    · rw [List.count_cons, ih, List.count_cons (l := rest), Nat.add_right_comm]

theorem mergeOverlapping_snoc (groups : List (List TensorId)) (group : List TensorId) :
    mergeOverlapping (groups ++ [group]) = join group (mergeOverlapping groups) := by
  simp [mergeOverlapping]

theorem mergeOverlapping_pair {a b : TensorId} (below : a < b) :
    mergeOverlapping [[a, b]] = [[a, b]] := by
  have apart : b ≠ a := by lia
  have ordered : a ≤ b := by lia
  simp [mergeOverlapping, join, ascending, List.eraseDups_cons, Ordered.sort, Ordered.insert, apart, ordered]

theorem mergeOverlapping_parts (groups : List (List TensorId)) :
    ∃ leaders, Components groups leaders (mergeOverlapping groups) := by
  induction groups using List.reverseRecOn with
  | nil => exact ⟨[], .nil, fun i => by simp [Leads], .nil⟩
  | append_singleton groups group ih =>
    obtain ⟨leaders, parts⟩ := ih
    rw [mergeOverlapping_snoc]
    exact parts.extend group

theorem ascending_mergeOverlapping {groups : List (List TensorId)} {list : List TensorId}
    (listed : list ∈ mergeOverlapping groups) : list.Pairwise (· < ·) := by
  obtain ⟨leaders, parts⟩ := mergeOverlapping_parts groups
  obtain ⟨i, -, component⟩ := parts.exists_leader listed
  exact component.ascending

theorem count_nil_mergeOverlapping (groups : List (List TensorId)) :
    (mergeOverlapping groups).count [] = groups.count [] := by
  induction groups using List.reverseRecOn with
  | nil => rfl
  | append_singleton groups group ih => rw [mergeOverlapping_snoc, count_nil_join, ih, List.count_append]

/-- Merging gives the connected components of the groups, one list each, in the
order of their first groups. So the lists share nothing, they hold the tensors of
the groups, tensors come together only if they have to, and each group without
tensors stays by itself. -/
theorem mergeOverlapping_finds_components (groups : List (List TensorId)) :
    (∃ leaders, Components groups leaders (mergeOverlapping groups)) ∧
    (mergeOverlapping groups).Pairwise List.Disjoint ∧
    (∀ tensor, tensor ∈ (mergeOverlapping groups).flatten ↔ tensor ∈ groups.flatten) ∧
    (∀ a b, (∃ list ∈ mergeOverlapping groups, a ∈ list ∧ b ∈ list) ↔
      ∃ i j, HeldAt groups a i ∧ Connected groups i j ∧ HeldAt groups b j) ∧
    (mergeOverlapping groups).count [] = groups.count [] := by
  obtain ⟨leaders, parts⟩ := mergeOverlapping_parts groups
  exact ⟨⟨leaders, parts⟩, parts.disjoint, fun tensor => parts.mem_flatten, fun a b => parts.together_iff,
    count_nil_mergeOverlapping groups⟩

-- The last group joins the first and the third, which do not overlap.
example : mergeOverlapping [[4, 2], [], [7, 7], [-1], [7, 2], []] = [[2, 4, 7], [], [-1], []] := by decide

end TensorNetwork.Grouping
