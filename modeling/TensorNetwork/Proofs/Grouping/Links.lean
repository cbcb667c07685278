import Mathlib.Data.Nat.Find
import Mathlib.Logic.Relation
import TensorNetwork.Grouping

/-! Chains of overlapping groups. Groups are told apart by their positions, so that
equal groups and groups without tensors count once for each place; two positions
are linked if their groups share a tensor. A class of connected positions is known
by its first one. Adding a group at the end brings the classes that it touches
into one and leaves the others alone. -/
namespace TensorNetwork.Grouping

/-- The group at a position holds a tensor. -/
def HeldAt (groups : List (List TensorId)) (tensor : TensorId) (i : Nat) : Prop :=
  ∃ group, groups[i]? = some group ∧ tensor ∈ group

def Linked (groups : List (List TensorId)) (i j : Nat) : Prop :=
  ∃ tensor, HeldAt groups tensor i ∧ HeldAt groups tensor j

/-- A chain of overlapping groups joins two positions. -/
def Connected (groups : List (List TensorId)) : Nat → Nat → Prop :=
  Relation.ReflTransGen (Linked groups)

/-- The first position of a class. -/
def Leads (groups : List (List TensorId)) (i : Nat) : Prop :=
  i < groups.length ∧ ∀ j, Connected groups i j → i ≤ j

section Links
variable {groups : List (List TensorId)} {tensor : TensorId} {i j : Nat}

theorem HeldAt.lt_length (held : HeldAt groups tensor i) : i < groups.length := by
  obtain ⟨group, found, -⟩ := held
  exact (List.getElem?_eq_some_iff.mp found).1

theorem exists_heldAt : (∃ i, HeldAt groups tensor i) ↔ tensor ∈ groups.flatten := by
  rw [List.mem_flatten]
  constructor
  · rintro ⟨i, group, found, held⟩
    exact ⟨group, List.mem_of_getElem? found, held⟩
  · rintro ⟨group, member, held⟩
    obtain ⟨i, found⟩ := List.getElem?_of_mem member
    exact ⟨i, group, found, held⟩

theorem Connected.symm (connected : Connected groups i j) : Connected groups j i := by
  induction connected with
  | refl => exact .refl
  | tail _ link ih =>
    obtain ⟨tensor, here, there⟩ := link
    exact .head ⟨tensor, there, here⟩ ih

/-- Only positions that hold something are connected with others. -/
theorem Connected.eq_or_lt (connected : Connected groups i j) :
    i = j ∨ i < groups.length ∧ j < groups.length := by
  induction connected with
  | refl => exact .inl rfl
  | tail earlier link ih =>
    obtain ⟨tensor, here, there⟩ := link
    refine .inr ⟨?_, there.lt_length⟩
    rcases ih with same | ⟨first, -⟩
    · exact same ▸ here.lt_length
    · exact first

theorem Connected.lt_length (connected : Connected groups i j) (bound : i < groups.length) :
    j < groups.length := by
  rcases connected.eq_or_lt with same | ⟨-, last⟩
  · exact same ▸ bound
  · exact last

theorem Connected.eq_of_length (connected : Connected groups groups.length j) : j = groups.length := by
  rcases connected.eq_or_lt with same | ⟨impossible, -⟩
  · exact same.symm
  · exact absurd impossible (Nat.lt_irrefl _)

/-- Every class has a first position. -/
theorem exists_leads (bound : i < groups.length) : ∃ k, Leads groups k ∧ Connected groups i k := by
  classical
  have inhabited : ∃ k, Connected groups i k := ⟨i, .refl⟩
  have first := Nat.find_spec inhabited
  refine ⟨Nat.find inhabited, ⟨first.lt_length bound, fun j onwards => ?_⟩, first⟩
  exact Nat.find_min' inhabited (first.trans onwards)

theorem Leads.eq (here : Leads groups i) (there : Leads groups j) (connected : Connected groups i j) : i = j :=
  Nat.le_antisymm (here.2 j connected) (there.2 i connected.symm)

end Links

section Extension
variable {groups : List (List TensorId)} {group : List TensorId} {tensor : TensorId} {i j : Nat}

/-- A position is connected with a tensor of a group. -/
def Touches (groups : List (List TensorId)) (group : List TensorId) (i : Nat) : Prop :=
  ∃ j, Connected groups i j ∧ ∃ tensor ∈ group, HeldAt groups tensor j

/-- The positions that a further group brings into one class, its own included. -/
def Gathers (groups : List (List TensorId)) (group : List TensorId) (i : Nat) : Prop :=
  i = groups.length ∨ Touches groups group i

theorem heldAt_snoc :
    HeldAt (groups ++ [group]) tensor i ↔ HeldAt groups tensor i ∨ i = groups.length ∧ tensor ∈ group := by
  rcases Nat.lt_trichotomy i groups.length with below | here | above
  · simp [HeldAt, List.getElem?_append_left below, Nat.ne_of_lt below]
  · subst here
    simp [HeldAt]
  · have old : groups[i]? = none := List.getElem?_eq_none (Nat.le_of_lt above)
    have new : (groups ++ [group])[i]? = none := List.getElem?_eq_none (by simpa [Nat.succ_le_iff] using above)
    simp [HeldAt, old, new, Nat.ne_of_gt above]

theorem Touches.lt_length (touches : Touches groups group i) : i < groups.length := by
  obtain ⟨j, connected, tensor, -, held⟩ := touches
  exact connected.symm.lt_length held.lt_length

theorem Touches.connected (touches : Touches groups group i) (connected : Connected groups i j) :
    Touches groups group j := by
  obtain ⟨k, onwards, shared⟩ := touches
  exact ⟨k, connected.symm.trans onwards, shared⟩

theorem Gathers.connected (gathers : Gathers groups group i) (connected : Connected groups i j) :
    Gathers groups group j := by
  rcases gathers with rfl | touches
  · exact .inl connected.eq_of_length
  · exact .inr (touches.connected connected)

/-- A further group joins the classes it shares tensors with. -/
theorem connected_snoc :
    Connected (groups ++ [group]) i j ↔
      Connected groups i j ∨ Gathers groups group i ∧ Gathers groups group j := by
  constructor
  · intro connected
    induction connected with
    | refl => exact .inl .refl
    | @tail middle last _ link ih =>
      have linked : Connected groups middle last ∨ Gathers groups group middle ∧ Gathers groups group last := by
        obtain ⟨tensor, here, there⟩ := link
        rcases heldAt_snoc.mp here with old | ⟨rfl, new⟩ <;>
          rcases heldAt_snoc.mp there with old' | ⟨rfl, new'⟩
        · exact .inl (.single ⟨tensor, old, old'⟩)
        · exact .inr ⟨.inr ⟨middle, .refl, tensor, new', old⟩, .inl rfl⟩
        · exact .inr ⟨.inl rfl, .inr ⟨last, .refl, tensor, new, old'⟩⟩
        · exact .inl .refl
      rcases ih with before | ⟨first, between⟩ <;> rcases linked with after | ⟨between', final⟩
      · exact .inl (before.trans after)
      · exact .inr ⟨between'.connected before.symm, final⟩
      · exact .inr ⟨first, between.connected after⟩
      · exact .inr ⟨first, final⟩
  · have old : ∀ {a b}, Connected groups a b → Connected (groups ++ [group]) a b := fun connected =>
      Relation.ReflTransGen.mono (fun _ _ ⟨tensor, here, there⟩ =>
        ⟨tensor, heldAt_snoc.mpr (.inl here), heldAt_snoc.mpr (.inl there)⟩) _ _ connected
    have gathered : ∀ {a}, Gathers groups group a → Connected (groups ++ [group]) a groups.length := by
      rintro a (rfl | ⟨b, connected, tensor, member, held⟩)
      · exact .refl
      · exact (old connected).tail ⟨tensor, heldAt_snoc.mpr (.inl held), heldAt_snoc.mpr (.inr ⟨rfl, member⟩)⟩
    rintro (connected | ⟨here, there⟩)
    · exact old connected
    · exact (gathered here).trans (gathered there).symm

theorem leads_snoc :
    Leads (groups ++ [group]) i ↔
      (Leads groups i ∨ i = groups.length) ∧
        (Gathers groups group i → ∀ j, Gathers groups group j → i ≤ j) := by
  simp only [Leads, connected_snoc, List.length_append, List.length_singleton]
  constructor
  · rintro ⟨bound, first⟩
    refine ⟨?_, fun here j there => first j (.inr ⟨here, there⟩)⟩
    rcases Nat.lt_succ_iff_lt_or_eq.mp bound with below | last
    · exact .inl ⟨below, fun j connected => first j (.inl connected)⟩
    · exact .inr last
  · rintro ⟨⟨bound, first⟩ | rfl, least⟩
    · refine ⟨Nat.lt_succ_of_lt bound, ?_⟩
      rintro j (connected | ⟨here, there⟩)
      · exact first j connected
      · exact least here j there
    · refine ⟨Nat.lt_succ_self _, ?_⟩
      rintro j (connected | ⟨here, there⟩)
      · exact Nat.le_of_eq connected.eq_of_length.symm
      · exact least here j there

end Extension

end TensorNetwork.Grouping
