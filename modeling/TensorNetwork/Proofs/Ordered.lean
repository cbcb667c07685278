import Mathlib.Data.List.Sort
import TensorNetwork.Ordered

/-! Sorting by insertion is that of the library, which says what it does. -/
namespace TensorNetwork.Ordered
variable {α : Type} (le : α → α → Bool)

theorem insert_eq_orderedInsert (a : α) (l : List α) :
    insert le a l = l.orderedInsert (fun b c => le b c = true) a := by
  induction l with
  | nil => rfl
  | cons b rest ih => rw [insert, ih, List.orderedInsert_cons]

theorem sort_eq_insertionSort (l : List α) :
    sort le l = l.insertionSort fun a b => le a b = true := by
  have inserts : insert le = fun a l => l.orderedInsert (fun b c => le b c = true) a :=
    funext fun a => funext (insert_eq_orderedInsert le a)
  rw [sort, inserts]
  rfl

@[simp] theorem sort_nil : sort le [] = [] := rfl

@[simp] theorem sort_singleton (a : α) : sort le [a] = [a] := rfl

@[simp] theorem mem_sort {le : α → α → Bool} {a : α} {l : List α} : a ∈ sort le l ↔ a ∈ l := by
  rw [sort_eq_insertionSort, List.mem_insertionSort]

theorem sort_perm (l : List α) : (sort le l).Perm l :=
  sort_eq_insertionSort le l ▸ List.perm_insertionSort _ l

theorem sort_pairwise (total : ∀ a b, le a b = true ∨ le b a = true)
    (trans : ∀ a b c, le a b = true → le b c = true → le a c = true) (l : List α) :
    (sort le l).Pairwise fun a b => le a b = true := by
  have : Std.Total fun a b => le a b = true := ⟨total⟩
  have : IsTrans α fun a b => le a b = true := ⟨trans⟩
  rw [sort_eq_insertionSort]
  exact List.pairwise_insertionSort _ l

/-- Sorting forgets the order if no two members are on a par. -/
theorem sort_eq_of_perm (total : ∀ a b, le a b = true ∨ le b a = true)
    (trans : ∀ a b c, le a b = true → le b c = true → le a c = true)
    (antisymm : ∀ a b, le a b = true → le b a = true → a = b) {l r : List α} (perm : l.Perm r) :
    sort le l = sort le r :=
  (((sort_perm le l).trans perm).trans (sort_perm le r).symm).eq_of_pairwise (fun a b _ _ => antisymm a b)
    (sort_pairwise le total trans l) (sort_pairwise le total trans r)

end TensorNetwork.Ordered
