import Mathlib.Data.List.GetD
import Mathlib.Data.List.Nodup
import Mathlib.Data.List.Perm.Subperm
import TensorNetwork.Operation.Canonical
import TensorNetwork.Proofs.Outcome

/-! What the operations hold that were built from parts. The checks themselves are
fields of the operations; here a success is traced back to its arguments. As checks tell
nothing apart, operations with the same parts are equal. -/
namespace TensorNetwork

attribute [ext] Operand Contraction Transposition Split

namespace Contraction

theorem ofOperands_eq_ok {operands : List Operand} {kept : List Label} {output : TensorId}
    {c : Contraction} (built : ofOperands operands kept output = .ok c) :
    c.operands = operands ∧ c.kept = kept ∧ c.output = output := by
  unfold ofOperands at built
  split at built
  · cases built
  · split at built
    · split at built
      · cases built
      · cases built
        exact ⟨rfl, rfl, rfl⟩
    · cases built

/-- The checks of a contraction at hand have been passed. -/
theorem ofOperands_self (c : Contraction) : ofOperands c.operands c.kept c.output = .ok c := by
  unfold ofOperands
  rw [dif_neg c.operands_nonempty, dif_pos c.kept_nodup]
  split
  · rename_i label found
    have shared : 1 < (owners label c.operands).length := by simpa using List.find?_some found
    have owned := c.kept_owned label (List.mem_of_find?_eq_some found)
    omega
  · rfl

theorem make_structural {tensors : List TensorId} {subscripts : List (List Label)} {kept : List Label}
    {output : TensorId} {e : Error} (refused : make tensors subscripts kept output = .error e) :
    e.kind = .structural := by
  unfold make ofOperands at refused
  repeat' split at refused
  all_goals cases refused
  all_goals rfl

/-- Renaming keeps the tensors and the number of their axes, and every label that
is kept labels some axis. -/
theorem canonical_eq_ok {c d : Contraction} (renamed : c.canonical = .ok d) :
    d.operands = c.operands.map (Operand.relabel (canonicalLabel c.labels.eraseDups)) ∧
      d.kept = c.kept.map (canonicalLabel c.labels.eraseDups) ∧ d.output = c.output ∧
      ∀ label ∈ c.kept, label ∈ c.labels := by
  unfold canonical at renamed
  dsimp only at renamed
  split at renamed
  · cases renamed
  · rename_i bound
    obtain ⟨operands, kept, output⟩ := ofOperands_eq_ok renamed
    refine ⟨operands, kept, output, fun label member => ?_⟩
    simpa using List.find?_eq_none.mp bound label member

theorem canonical_labels {c d : Contraction} (renamed : c.canonical = .ok d) :
    d.labels = c.labels.map (canonicalLabel c.labels.eraseDups) := by
  rw [labels, (canonical_eq_ok renamed).1, labels, List.map_flatMap, List.flatMap_map]
  rfl

theorem canonical_kept {c d : Contraction} (renamed : c.canonical = .ok d) :
    ∀ label ∈ d.kept, label ∈ d.labels := by
  obtain ⟨-, kept, -, bound⟩ := canonical_eq_ok renamed
  intro label member
  rw [kept] at member
  obtain ⟨old, held, rfl⟩ := List.mem_map.mp member
  rw [canonical_labels renamed]
  exact List.mem_map_of_mem (bound old held)

end Contraction

theorem Transposition.make_eq_ok {input output : TensorId} {permutation : List Int} {t : Transposition}
    (built : make input permutation output = .ok t) :
    t.input = input ∧ t.permutation = permutation ∧ t.output = output := by
  unfold make at built
  split at built
  · cases built
  · cases built
    exact ⟨rfl, rfl, rfl⟩

theorem Transposition.make_self (t : Transposition) : make t.input t.permutation t.output = .ok t := by
  unfold make
  split
  · rename_i axis found
    have missing : (axis : Int) ∉ t.permutation := by simpa using List.find?_some found
    exact absurd (t.complete axis (List.mem_range.mp (List.mem_of_find?_eq_some found))) missing
  · rfl

theorem Transposition.make_structural {input output : TensorId} {permutation : List Int} {e : Error}
    (refused : make input permutation output = .error e) : e.kind = .structural := by
  unfold make at refused
  split at refused
  · cases refused
    rfl
  · cases refused

theorem Split.make_eq_ok {input q r : TensorId} {rank left : Int} {s : Split}
    (built : make input rank left q r = .ok s) :
    s.input = input ∧ s.rank = rank.toNat ∧ s.left = left.toNat ∧ s.q = q ∧ s.r = r := by
  unfold make at built
  split at built
  · cases built
  · split at built
    · cases built
    · split at built
      · cases built
      · cases built
        exact ⟨rfl, rfl, rfl, rfl, rfl⟩

theorem Split.make_self (s : Split) : make s.input s.rank s.left s.q s.r = .ok s := by
  have pos := s.left_pos
  have lt := s.left_lt
  unfold make
  rw [if_neg (by omega), dif_neg (by omega), dif_neg (by omega)]
  rfl

theorem Split.make_structural {input q r : TensorId} {rank left : Int} {e : Error}
    (refused : make input rank left q r = .error e) : e.kind = .structural := by
  unfold make at refused
  repeat' split at refused
  all_goals cases refused
  all_goals rfl

namespace Transposition

/-- A list that names every position below its length names each of them once. -/
theorem permutation_perm (t : Transposition) :
    t.permutation.Perm ((List.range t.rank).map Int.ofNat) := by
  have nodup : ((List.range t.rank).map Int.ofNat).Nodup :=
    List.Nodup.map (fun a b same => Int.ofNat.inj same) List.nodup_range
  have subset : (List.range t.rank).map Int.ofNat ⊆ t.permutation := by
    intro axis member
    obtain ⟨i, bound, rfl⟩ := List.mem_map.mp member
    exact t.complete i (List.mem_range.mp bound)
  exact ((List.subperm_of_subset nodup subset).perm_of_length_le (by simp [rank])).symm

theorem bounded (t : Transposition) {axis : Int} (member : axis ∈ t.permutation) :
    0 ≤ axis ∧ axis < t.rank := by
  obtain ⟨i, bound, rfl⟩ := List.mem_map.mp (t.permutation_perm.mem_iff.mp member)
  have := List.mem_range.mp bound
  exact ⟨Int.natCast_nonneg i, Int.ofNat_lt.mpr this⟩

/-- Arranging as many items as there are axes looks each of them up. -/
theorem arrange_eq_map {α : Type} (t : Transposition) {items : List α} (sized : items.length = t.rank)
    (default : α) : t.arrange items = t.permutation.map fun axis => items.getD axis.toNat default := by
  rw [arrange, ← List.filterMap_eq_map]
  apply List.filterMap_congr
  intro axis member
  obtain ⟨low, high⟩ := t.bounded member
  have bound : axis.toNat < items.length := by omega
  simp [List.getD, bound]

/-- Each axis of the result is the axis of the input that its entry names. -/
theorem getElem?_arrange {α : Type} (t : Transposition) {items : List α} (sized : items.length = t.rank) {i : Nat}
    {axis : Int} (entry : t.permutation[i]? = some axis) : (t.arrange items)[i]? = items[axis.toNat]? := by
  obtain ⟨low, high⟩ := t.bounded (List.mem_of_getElem? entry)
  have bound : axis.toNat < items.length := by omega
  rw [t.arrange_eq_map sized items[axis.toNat], List.getElem?_map, entry, Option.map_some,
    List.getElem?_eq_getElem bound, List.getD_eq_getElem _ _ bound]

theorem mem_of_arrange {α : Type} (t : Transposition) {items : List α} {a : α} (member : a ∈ t.arrange items) :
    a ∈ items := by
  obtain ⟨axis, -, found⟩ := List.mem_filterMap.mp member
  exact List.mem_of_getElem? found

theorem arrange_map {α β : Type} (t : Transposition) (f : α → β) (items : List α) :
    t.arrange (items.map f) = (t.arrange items).map f := by
  rw [arrange, arrange, List.map_filterMap]
  simp only [List.getElem?_map]

theorem arrange_length {α : Type} (t : Transposition) {items : List α} (sized : items.length = t.rank) :
    (t.arrange items).length = t.rank := by
  cases items with
  | nil =>
    have none : t.permutation = [] := List.eq_nil_of_length_eq_zero sized.symm
    simp [arrange, rank, none]
  | cons default rest => simp [t.arrange_eq_map sized default, rank]

end Transposition
end TensorNetwork
