import Mathlib.Data.List.GetD
import Mathlib.Data.List.Lattice
import Mathlib.Data.List.Pairwise
import Mathlib.Data.List.Sort
import TensorNetwork.Proofs.Grouping.Components

/-! Merging in pieces. Connected groups may be brought together before the others are
looked at: the classes stay, and so does their order, as long as a list that stands for
several groups stands where the first of them stood. Without regard to order the result
depends only on which tensors the groups hold together. -/
namespace TensorNetwork.Grouping

/-- Groups brought together. The group at position `k` of `after` holds what the groups
of `before` near the position `first k` hold, and no earlier one is near to it. -/
structure Condenses (before after : List (List TensorId)) (first : Nat → Nat) (Near : Nat → Nat → Prop) :
    Prop where
  near_self : ∀ i, Near i i
  near_connected : ∀ {i j}, Near i j → Connected before i j
  held : ∀ {tensor k}, k < after.length →
    (HeldAt after tensor k ↔ ∃ i, Near (first k) i ∧ HeldAt before tensor i)
  covers : ∀ {i}, i < before.length → ∃ k, k < after.length ∧ Near (first k) i ∧ first k ≤ i
  bounded : ∀ {k}, k < after.length → first k < before.length
  ascending : ∀ {k l}, k < l → l < after.length → first k < first l

namespace Condenses
variable {before after : List (List TensorId)} {first : Nat → Nat} {Near : Nat → Nat → Prop}
  (condenses : Condenses before after first Near) {k l : Nat}
include condenses

theorem connected_first (connected : Connected after k l) : Connected before (first k) (first l) := by
  induction connected with
  | refl => exact .refl
  | tail _ link ih =>
    obtain ⟨tensor, here, there⟩ := link
    obtain ⟨i, near, held⟩ := (condenses.held here.lt_length).mp here
    obtain ⟨j, near', held'⟩ := (condenses.held there.lt_length).mp there
    have across : Connected before i j := .single ⟨tensor, held, held'⟩
    exact ((ih.trans (condenses.near_connected near)).trans across).trans (condenses.near_connected near').symm

/-- What a position is connected with went into a list that is connected with it. -/
theorem exists_connected (bound : k < after.length) {j : Nat} (connected : Connected before (first k) j) :
    ∃ l, l < after.length ∧ Connected after k l ∧ Near (first l) j ∧ first l ≤ j := by
  induction connected with
  | refl => exact ⟨k, bound, .refl, condenses.near_self _, Nat.le_refl _⟩
  | tail _ link ih =>
    obtain ⟨l, inside, reached, near, -⟩ := ih
    obtain ⟨tensor, here, there⟩ := link
    obtain ⟨l', inside', near', order⟩ := condenses.covers there.lt_length
    have held := (condenses.held inside).mpr ⟨_, near, here⟩
    have held' := (condenses.held inside').mpr ⟨_, near', there⟩
    exact ⟨l', inside', reached.tail ⟨tensor, held, held'⟩, near', order⟩

theorem first_le_iff (inside : k < after.length) (inside' : l < after.length) : first k ≤ first l ↔ k ≤ l := by
  constructor
  · intro order
    apply Nat.le_of_not_lt
    intro above
    exact absurd (condenses.ascending above inside) (Nat.not_lt.mpr order)
  · intro order
    rcases Nat.lt_or_eq_of_le order with below | rfl
    · exact Nat.le_of_lt (condenses.ascending below inside')
    · exact Nat.le_refl _

theorem leads_first (inside : k < after.length) : Leads after k ↔ Leads before (first k) := by
  constructor
  · rintro ⟨-, least⟩
    refine ⟨condenses.bounded inside, fun j connected => ?_⟩
    obtain ⟨l, inside', reached, -, order⟩ := condenses.exists_connected inside connected
    exact Nat.le_trans ((condenses.first_le_iff inside inside').mpr (least l reached)) order
  · rintro ⟨-, least⟩
    refine ⟨inside, fun l connected => ?_⟩
    have inside' := connected.lt_length inside
    exact (condenses.first_le_iff inside inside').mp (least _ (condenses.connected_first connected))

theorem leads_iff {i : Nat} : Leads before i ↔ ∃ k, Leads after k ∧ first k = i := by
  constructor
  · intro leads
    obtain ⟨k, inside, near, order⟩ := condenses.covers leads.1
    have same : first k = i :=
      Nat.le_antisymm order (leads.2 _ (condenses.near_connected near).symm)
    exact ⟨k, (condenses.leads_first inside).mpr (same ▸ leads), same⟩
  · rintro ⟨k, leads, rfl⟩
    exact (condenses.leads_first leads.1).mp leads

/-- A class of lists holds what the class of its first group holds. -/
theorem component_first {merged : List TensorId} (inside : k < after.length)
    (component : Component after k merged) : Component before (first k) merged := by
  refine ⟨component.ascending, fun tensor => (component.members tensor).trans ?_⟩
  constructor
  · rintro ⟨l, connected, held⟩
    obtain ⟨j, near, held'⟩ := (condenses.held held.lt_length).mp held
    exact ⟨j, (condenses.connected_first connected).trans (condenses.near_connected near), held'⟩
  · rintro ⟨j, connected, held⟩
    obtain ⟨l, inside', reached, near, -⟩ := condenses.exists_connected inside connected
    exact ⟨l, reached, (condenses.held inside').mpr ⟨j, near, held⟩⟩

theorem components {leaders : List Nat} {merged : List (List TensorId)} (parts : Components after leaders merged) :
    Components before (leaders.map first) merged := by
  refine ⟨?_, fun i => ?_, ?_⟩
  · refine List.pairwise_map.mpr (parts.ascending.imp_of_mem fun _ listed below => ?_)
    exact condenses.ascending below (parts.lt_length listed)
  · rw [List.mem_map, condenses.leads_iff]
    simp only [parts.leads]
  · rw [List.forall₂_map_left_iff]
    have bounded := (List.forall₂_and_left leaders merged).mpr ⟨fun k => parts.lt_length, parts.components⟩
    exact bounded.imp fun k list both => condenses.component_first both.1 both.2

end Condenses

theorem Component.unique {groups : List (List TensorId)} {i : Nat} {a b : List TensorId}
    (one : Component groups i a) (other : Component groups i b) : a = b :=
  one.ascending.eq_of_mem_iff other.ascending fun tensor => (one.members tensor).trans (other.members tensor).symm

/-- The classes determine the lists and their order. -/
theorem Components.unique {groups merged merged' : List (List TensorId)} {leaders leaders' : List Nat}
    (one : Components groups leaders merged) (other : Components groups leaders' merged') : merged = merged' := by
  have same : leaders = leaders' :=
    one.ascending.eq_of_mem_iff other.ascending fun i => (one.leads i).trans (other.leads i).symm
  subst same
  have determined : Relator.RightUnique (Component groups) := fun i a b => Component.unique
  exact determined.forall₂ one.components other.components

theorem mergeOverlapping_condensed {before after : List (List TensorId)} {first : Nat → Nat}
    {Near : Nat → Nat → Prop} (condenses : Condenses before after first Near) :
    mergeOverlapping after = mergeOverlapping before := by
  obtain ⟨leaders, parts⟩ := mergeOverlapping_parts after
  obtain ⟨leaders', parts'⟩ := mergeOverlapping_parts before
  exact (condenses.components parts).unique parts'

section Suffix
variable {front groups merged : List (List TensorId)} {leaders : List Nat} {tensor : TensorId} {i j : Nat}

theorem heldAt_append_left (bound : i < front.length) :
    HeldAt (front ++ groups) tensor i ↔ HeldAt front tensor i := by
  simp only [HeldAt, List.getElem?_append_left bound]

theorem heldAt_append_right :
    HeldAt (front ++ groups) tensor (front.length + i) ↔ HeldAt groups tensor i := by
  simp only [HeldAt, List.getElem?_append_right (Nat.le_add_right _ _), Nat.add_sub_cancel_left]

theorem Connected.append_right (connected : Connected groups i j) :
    Connected (front ++ groups) (front.length + i) (front.length + j) := by
  refine Relation.ReflTransGen.lift (front.length + ·) ?_ _ _ connected
  rintro a b ⟨tensor, here, there⟩
  exact ⟨tensor, heldAt_append_right.mpr here, heldAt_append_right.mpr there⟩

/-- A position of the front, or one of the back as the front moves it. -/
theorem position_cases (front : List (List TensorId)) (i : Nat) :
    i < front.length ∨ ∃ a, i = front.length + a := by
  rcases Nat.lt_or_ge i front.length with below | above
  · exact .inl below
  · exact .inr ⟨i - front.length, by omega⟩

/-- Where a list of merged groups behind others comes from: itself in the front, the first
group of its class behind it. -/
def origin (front : List (List TensorId)) (leaders : List Nat) (k : Nat) : Nat :=
  if k < front.length then k else front.length + leaders.getD (k - front.length) 0

theorem origin_front (inside : i < front.length) : origin front leaders i = i := if_pos inside

theorem origin_back (a : Nat) : origin front leaders (front.length + a) = front.length + leaders.getD a 0 := by
  rw [origin, if_neg (Nat.not_lt.mpr (Nat.le_add_right _ _)), Nat.add_sub_cancel_left]

/-- Positions of the back in one class of the back. -/
def NearBehind (front groups : List (List TensorId)) (i j : Nat) : Prop :=
  i = j ∨ ∃ a b, i = front.length + a ∧ j = front.length + b ∧ Connected groups a b

namespace Components
variable (parts : Components groups leaders merged)
include parts

theorem length_eq : leaders.length = merged.length := parts.components.length_eq

theorem component_at {a : Nat} (bound : a < merged.length) :
    Component groups (leaders.getD a 0) (merged.getD a []) := by
  have inside : a < leaders.length := parts.length_eq ▸ bound
  rw [List.getD_eq_getElem _ _ inside, List.getD_eq_getElem _ _ bound]
  exact parts.components.get inside bound

theorem heldAt_iff {a : Nat} (bound : a < merged.length) :
    HeldAt merged tensor a ↔ ∃ b, Connected groups (leaders.getD a 0) b ∧ HeldAt groups tensor b := by
  rw [← (parts.component_at bound).members tensor, List.getD_eq_getElem _ _ bound, HeldAt]
  simp [bound]

theorem leads_at {a : Nat} (bound : a < merged.length) : Leads groups (leaders.getD a 0) := by
  have inside : a < leaders.length := parts.length_eq ▸ bound
  rw [List.getD_eq_getElem _ _ inside]
  exact (parts.leads _).mp (List.getElem_mem inside)

theorem exists_at {b : Nat} (bound : b < groups.length) :
    ∃ a, a < merged.length ∧ Connected groups (leaders.getD a 0) b ∧ leaders.getD a 0 ≤ b := by
  obtain ⟨i, leads, connected⟩ := exists_leads bound
  obtain ⟨a, inside, rfl⟩ := List.getElem_of_mem ((parts.leads i).mpr leads)
  rw [← List.getD_eq_getElem _ 0 inside] at leads connected
  exact ⟨a, parts.length_eq ▸ inside, connected.symm, leads.2 b connected.symm⟩

theorem leaders_lt {a b : Nat} (below : a < b) (bound : b < merged.length) :
    leaders.getD a 0 < leaders.getD b 0 := by
  have inside : b < leaders.length := parts.length_eq ▸ bound
  rw [List.getD_eq_getElem _ _ inside, List.getD_eq_getElem _ _ (Nat.lt_trans below inside)]
  exact List.pairwise_iff_getElem.mp parts.ascending a b _ inside below

/-- Merging the groups behind others brings together what is connected anyway. -/
theorem condenses (front : List (List TensorId)) :
    Condenses (front ++ groups) (front ++ merged) (origin front leaders) (NearBehind front groups) where
  near_self _ := .inl rfl
  near_connected := by
    rintro i j (rfl | ⟨a, b, rfl, rfl, connected⟩)
    · exact .refl
    · exact connected.append_right
  held := by
    intro tensor k inside
    rcases position_cases front k with here | ⟨a, rfl⟩
    · rw [heldAt_append_left here, origin_front here]
      constructor
      · exact fun held => ⟨k, .inl rfl, (heldAt_append_left here).mpr held⟩
      · rintro ⟨i, rfl | ⟨a, b, rfl, -, -⟩, held⟩
        · exact (heldAt_append_left here).mp held
        · omega
    · have bound : a < merged.length := by simpa using inside
      rw [heldAt_append_right, parts.heldAt_iff bound, origin_back]
      constructor
      · rintro ⟨b, connected, held⟩
        exact ⟨_, .inr ⟨_, b, rfl, rfl, connected⟩, heldAt_append_right.mpr held⟩
      · rintro ⟨i, rfl | ⟨c, b, same, rfl, connected⟩, held⟩
        · exact ⟨_, .refl, heldAt_append_right.mp held⟩
        · obtain rfl := Nat.add_left_cancel same
          exact ⟨b, connected, heldAt_append_right.mp held⟩
  covers := by
    intro i inside
    rcases position_cases front i with here | ⟨b, rfl⟩
    · refine ⟨i, by simp only [List.length_append]; omega, ?_, ?_⟩
      · exact .inl (origin_front here)
      · exact Nat.le_of_eq (origin_front here)
    · have bound : b < groups.length := by simpa using inside
      obtain ⟨a, bound', connected, order⟩ := parts.exists_at bound
      refine ⟨front.length + a, by simpa using bound', ?_, ?_⟩
      · exact .inr ⟨_, b, origin_back a, rfl, connected⟩
      · rw [origin_back]
        omega
  bounded := by
    intro k inside
    rcases position_cases front k with here | ⟨a, rfl⟩
    · rw [origin_front here, List.length_append]
      omega
    · have bound : a < merged.length := by simpa using inside
      have leader := (parts.leads_at bound).1
      rw [origin_back, List.length_append]
      omega
  ascending := by
    intro k l below inside
    rcases position_cases front l with here | ⟨b, rfl⟩
    · rw [origin_front here, origin_front (Nat.lt_trans below here)]
      exact below
    · have bound : b < merged.length := by simpa using inside
      rw [origin_back]
      rcases position_cases front k with there | ⟨a, rfl⟩
      · rw [origin_front there]
        omega
      · have order := parts.leaders_lt (Nat.lt_of_add_lt_add_left below) bound
        rw [origin_back]
        omega

end Components

/-- Groups behind others may be merged first. -/
theorem mergeOverlapping_behind (front groups : List (List TensorId)) :
    mergeOverlapping (front ++ mergeOverlapping groups) = mergeOverlapping (front ++ groups) := by
  obtain ⟨leaders, parts⟩ := mergeOverlapping_parts groups
  exact mergeOverlapping_condensed (parts.condenses front)

/-- Groups before others may be merged first. -/
theorem mergeOverlapping_before (groups back : List (List TensorId)) :
    mergeOverlapping (mergeOverlapping groups ++ back) = mergeOverlapping (groups ++ back) := by
  have again : mergeOverlapping (mergeOverlapping groups) = mergeOverlapping groups :=
    mergeOverlapping_behind [] groups
  simp only [mergeOverlapping, List.foldl_append] at again ⊢
  rw [again]

end Suffix

/-- Tensors that a chain of overlapping groups joins. -/
def Together (groups : List (List TensorId)) (a b : TensorId) : Prop :=
  ∃ i j, HeldAt groups a i ∧ Connected groups i j ∧ HeldAt groups b j

theorem heldAt_of_mem {groups : List (List TensorId)} {group : List TensorId} (member : group ∈ groups) :
    ∃ i, ∀ tensor ∈ group, HeldAt groups tensor i := by
  obtain ⟨i, found⟩ := List.getElem?_of_mem member
  exact ⟨i, fun tensor held => ⟨group, found, held⟩⟩

/-- Groups that lie inside groups of another list join nothing that the others do not. -/
theorem Together.mono {groups others : List (List TensorId)} {a b : TensorId}
    (inside : ∀ group ∈ groups, ∃ other ∈ others, group ⊆ other) (together : Together groups a b) :
    Together others a b := by
  have holder : ∀ {i}, i < groups.length → ∃ k, ∀ tensor, HeldAt groups tensor i → HeldAt others tensor k := by
    intro i bound
    obtain ⟨other, listed, within⟩ := inside groups[i] (List.getElem_mem bound)
    obtain ⟨k, held⟩ := heldAt_of_mem listed
    refine ⟨k, fun tensor ⟨group, found, member⟩ => held tensor (within ?_)⟩
    rw [List.getElem?_eq_getElem bound] at found
    exact Option.some.inj found ▸ member
  obtain ⟨i, j, first, connected, last⟩ := together
  -- Along the chain: the last tensor reached so far is joined with the first one.
  induction connected generalizing b with
  | refl =>
    obtain ⟨k, held⟩ := holder first.lt_length
    exact ⟨k, k, held a first, .refl, held b last⟩
  | tail _ link ih =>
    obtain ⟨tensor, here, there⟩ := link
    obtain ⟨start, stop, held, chain, reached⟩ := ih here
    obtain ⟨k, next⟩ := holder there.lt_length
    exact ⟨start, k, held, chain.tail ⟨tensor, reached, next tensor there⟩, next b last⟩

section Rearrangement
variable {groups others : List (List TensorId)}

/-- A merged list holds what is joined with any of its tensors. -/
theorem mem_iff_together {list : List TensorId} (listed : list ∈ mergeOverlapping groups) {a b : TensorId}
    (member : a ∈ list) : b ∈ list ↔ Together groups a b := by
  obtain ⟨leaders, parts⟩ := mergeOverlapping_parts groups
  constructor
  · exact fun other => parts.together_iff.mp ⟨list, listed, member, other⟩
  · intro together
    obtain ⟨found, listed', here, there⟩ := parts.together_iff.mpr together
    have same : found = list := by
      by_contra apart
      have symmetric : Std.Symm (List.Disjoint (α := TensorId)) := ⟨fun _ _ => List.Disjoint.symm⟩
      exact parts.disjoint.forall listed' listed apart here member
    exact same ▸ there

/-- Lists that hold something depend only on what is joined. -/
theorem mem_mergeOverlapping_of_together (same : ∀ a b, Together groups a b ↔ Together others a b)
    {list : List TensorId} (nonempty : list ≠ []) (listed : list ∈ mergeOverlapping groups) :
    list ∈ mergeOverlapping others := by
  obtain ⟨a, member⟩ := List.exists_mem_of_ne_nil list nonempty
  have here : Together others a a := (same a a).mp ((mem_iff_together listed member).mp member)
  obtain ⟨leaders, parts⟩ := mergeOverlapping_parts others
  obtain ⟨found, listed', member', -⟩ := parts.together_iff.mpr here
  have equal : list = found := by
    refine (ascending_mergeOverlapping listed).eq_of_mem_iff (ascending_mergeOverlapping listed') fun b => ?_
    rw [mem_iff_together listed member, mem_iff_together listed' member', same]
  exact equal ▸ listed'

theorem count_le_one (groups : List (List TensorId)) {list : List TensorId} (nonempty : list ≠ []) :
    (mergeOverlapping groups).count list ≤ 1 := by
  obtain ⟨leaders, parts⟩ := mergeOverlapping_parts groups
  apply Nat.le_of_not_lt
  intro repeated
  obtain ⟨a, member⟩ := List.exists_mem_of_ne_nil list nonempty
  have twice : List.Sublist [list, list] (mergeOverlapping groups) := List.replicate_sublist_iff.mpr repeated
  have apart := (List.pairwise_cons.mp (parts.disjoint.sublist twice)).1 list List.mem_cons_self
  exact apart member member

/-- What is joined and how many groups are empty determine the lists up to their order. -/
theorem mergeOverlapping_perm_of_together (same : ∀ a b, Together groups a b ↔ Together others a b)
    (empty : groups.count [] = others.count []) : (mergeOverlapping groups).Perm (mergeOverlapping others) := by
  rw [List.perm_iff_count]
  intro list
  by_cases nonempty : list = []
  · rw [nonempty, count_nil_mergeOverlapping, count_nil_mergeOverlapping, empty]
  · have listed : list ∈ mergeOverlapping groups ↔ list ∈ mergeOverlapping others :=
      ⟨mem_mergeOverlapping_of_together same nonempty,
        mem_mergeOverlapping_of_together (fun a b => (same a b).symm) nonempty⟩
    have once := count_le_one groups nonempty
    have once' := count_le_one others nonempty
    rw [← List.one_le_count_iff, ← List.one_le_count_iff] at listed
    omega

/-- The same groups in any order, the members of each in any order and any number. -/
def Rearranges (groups others : List (List TensorId)) : Prop :=
  ∃ reordered, groups.Perm reordered ∧ List.Forall₂ (fun a b => ∀ tensor, tensor ∈ a ↔ tensor ∈ b) reordered others

theorem Rearranges.inside (rearranges : Rearranges groups others) :
    ∀ group ∈ groups, ∃ other ∈ others, group ⊆ other := by
  obtain ⟨reordered, perm, same⟩ := rearranges
  intro group member
  obtain ⟨other, listed, members⟩ := Outcome.exists_of_forall₂ same (perm.mem_iff.mp member)
  exact ⟨other, listed, fun tensor => (members tensor).mp⟩

theorem Rearranges.covers (rearranges : Rearranges groups others) :
    ∀ other ∈ others, ∃ group ∈ groups, other ⊆ group := by
  obtain ⟨reordered, perm, same⟩ := rearranges
  intro other member
  obtain ⟨group, listed, members⟩ := Outcome.exists_of_forall₂ same.flip member
  exact ⟨group, perm.mem_iff.mpr listed, fun tensor => (members tensor).mpr⟩

theorem Rearranges.count_nil (rearranges : Rearranges groups others) : groups.count [] = others.count [] := by
  obtain ⟨reordered, perm, same⟩ := rearranges
  rw [perm.count_eq]
  clear perm
  induction same with
  | nil => rfl
  | @cons a b _ _ members _ ih =>
    have empty : a = [] ↔ b = [] := by simp only [List.eq_nil_iff_forall_not_mem, members]
    rw [List.count_cons, List.count_cons, ih]
    simp [empty]

theorem Rearranges.together_iff (rearranges : Rearranges groups others) (a b : TensorId) :
    Together groups a b ↔ Together others a b :=
  ⟨Together.mono rearranges.inside, Together.mono rearranges.covers⟩

end Rearrangement

/-- Merging may be done in pieces. Groups may be merged apart from others first, without
any change to the lists or to their order; so merging merged groups changes nothing.
Listing the groups and their members in another order, or members several times, changes
at most the order of the lists. -/
theorem mergeOverlapping_piecewise (xs ys : List (List TensorId)) :
    mergeOverlapping (mergeOverlapping xs ++ mergeOverlapping ys) = mergeOverlapping (xs ++ ys) ∧
    mergeOverlapping (mergeOverlapping xs) = mergeOverlapping xs ∧
    ∀ zs, Rearranges xs zs → (mergeOverlapping xs).Perm (mergeOverlapping zs) := by
  refine ⟨?_, mergeOverlapping_behind [] xs, fun zs rearranges => ?_⟩
  · rw [mergeOverlapping_before, mergeOverlapping_behind]
  · exact mergeOverlapping_perm_of_together rearranges.together_iff rearranges.count_nil

/-- The second list joins the lists of the first, and groups without tensors keep their
places; the rearranged groups give the same lists in another order. -/
theorem mergeOverlapping_piecewise_chain :
    mergeOverlapping (mergeOverlapping [[5, 3], [], [1, 2]] ++ mergeOverlapping [[9], [2, 7], [], [7, 3]]) =
      [[1, 2, 3, 5, 7], [], [9], []] ∧
    Rearranges [[5, 3], [], [1, 2]] [[2, 1, 2], [3, 5], []] ∧
    (mergeOverlapping [[5, 3], [], [1, 2]]).Perm (mergeOverlapping [[2, 1, 2], [3, 5], []]) := by
  have rearranges : Rearranges [[5, 3], [], [1, 2]] [[2, 1, 2], [3, 5], []] := by
    refine ⟨[[1, 2], [5, 3], []], by decide, ?_⟩
    refine .cons (fun tensor => ?_) (.cons (fun tensor => ?_) (.cons (fun tensor => Iff.rfl) .nil))
    · grind
    · grind
  obtain ⟨joined, -, reordered⟩ := mergeOverlapping_piecewise [[5, 3], [], [1, 2]] [[9], [2, 7], [], [7, 3]]
  exact ⟨joined.trans (by decide), rearranges, reordered _ rearranges⟩

end TensorNetwork.Grouping
