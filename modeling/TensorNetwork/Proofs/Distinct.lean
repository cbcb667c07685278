import Mathlib.Data.List.Induction
import Mathlib.Data.List.Nodup

/-! The distinct members of a list, each where it first appears. They grow from the left:
one more member is added at the end unless it has appeared before. -/
namespace TensorNetwork
variable {α β : Type} [DecidableEq α] [DecidableEq β]

theorem eraseDups_concat (l : List α) (a : α) :
    (l ++ [a]).eraseDups = if a ∈ l then l.eraseDups else l.eraseDups ++ [a] := by
  rw [List.eraseDups_append]
  by_cases held : a ∈ l <;> simp [List.removeAll, List.eraseDups_cons, held]

theorem nodup_eraseDups (l : List α) : l.eraseDups.Nodup := by
  induction l using List.reverseRecOn with
  | nil => exact .nil
  | append_singleton l a ih =>
    rw [eraseDups_concat]
    split
    · exact ih
    · rename_i new
      rw [← List.concat_eq_append]
      exact ih.concat fun listed => new (List.mem_eraseDups.mp listed)

/-- A renaming that keeps members apart keeps the order in which they first appear. -/
theorem eraseDups_map {f : α → β} {l : List α} (apart : ∀ a ∈ l, ∀ b ∈ l, f a = f b → a = b) :
    (l.map f).eraseDups = l.eraseDups.map f := by
  induction l using List.reverseRecOn with
  | nil => rfl
  | append_singleton l a ih =>
    have earlier := ih fun b held c other =>
      apart b (List.mem_append_left _ held) c (List.mem_append_left _ other)
    have again : f a ∈ l.map f ↔ a ∈ l := by
      refine ⟨fun listed => ?_, List.mem_map_of_mem⟩
      obtain ⟨b, held, same⟩ := List.mem_map.mp listed
      exact apart b (List.mem_append_left _ held) a (List.mem_append_right _ List.mem_cons_self) same ▸ held
    rw [List.map_append, List.map_singleton, eraseDups_concat, eraseDups_concat, earlier]
    simp only [again]
    split
    · rfl
    · rw [List.map_append, List.map_singleton]

/-- Members that do not repeat appear in the order of first appearances. -/
theorem filter_sublist_eraseDups {p : α → Bool} {l : List α} (rare : ∀ a, p a = true → l.count a ≤ 1) :
    (l.filter p).Sublist l.eraseDups := by
  induction l using List.reverseRecOn with
  | nil => exact .slnil
  | append_singleton l a ih =>
    have earlier : (l.filter p).Sublist l.eraseDups := ih fun b chosen => by
      have := rare b chosen
      rw [List.count_append] at this
      omega
    have grows : l.eraseDups.Sublist (l ++ [a]).eraseDups := by
      rw [eraseDups_concat]
      split
      · exact .refl _
      · exact List.sublist_append_left _ _
    by_cases chosen : p a = true
    · have new : a ∉ l := by
        intro held
        have once := rare a chosen
        have before := List.count_pos_iff.mpr held
        simp only [List.count_append, List.count_singleton_self] at once
        omega
      rw [eraseDups_concat, if_neg new, List.filter_append, List.filter_singleton, chosen]
      exact earlier.append (.refl _)
    · rw [List.filter_append, List.filter_singleton, Bool.eq_false_iff.mpr chosen]
      simpa using earlier.trans grows

end TensorNetwork
