import TensorNetwork.Proofs.Construction
import TensorNetwork.Proofs.Distinct

/-! Canonical labels are settled: renaming them again changes nothing. Labels that
appear in some order keep this order under a renaming that keeps them apart, and
the place of a label is such a renaming. -/
namespace TensorNetwork

theorem idxOf_map {α β : Type} [DecidableEq α] [DecidableEq β] {f : α → β} {l : List α} {x : α}
    (apart : ∀ a ∈ l, f a = f x → a = x) : (l.map f).idxOf (f x) = l.idxOf x := by
  induction l with
  | nil => rfl
  | cons a rest ih =>
    have later := ih fun b held => apart b (List.mem_cons_of_mem _ held)
    by_cases hit : a = x
    · simp [hit]
    · have missed : f a ≠ f x := fun same => hit (apart a List.mem_cons_self same)
      simp [hit, missed, later]

theorem canonicalLabel_apart {order : List Label} {a b : Label} (held : a ∈ order)
    (same : canonicalLabel order a = canonicalLabel order b) : a = b :=
  (List.idxOf_inj held).mp (Int.ofNat.inj same)

theorem canonicalLabel_eraseDups (labels : List Label) : ∀ a ∈ labels, ∀ b ∈ labels,
    canonicalLabel labels.eraseDups a = canonicalLabel labels.eraseDups b → a = b :=
  fun _ held _ _ same => canonicalLabel_apart (List.mem_eraseDups.mpr held) same

/-- Places ascend along an order. -/
theorem canonicalLabel_ascending {order : List Label} (nodup : order.Nodup) :
    order.Pairwise fun a b => canonicalLabel order a < canonicalLabel order b := by
  rw [List.pairwise_iff_getElem]
  intro i j first second before
  rw [canonicalLabel, canonicalLabel, nodup.idxOf_getElem i first, nodup.idxOf_getElem j second]
  exact Int.ofNat_lt.mpr before

theorem owners_relabel {f : Label → Label} {operands : List Operand} {label : Label}
    (apart : ∀ operand ∈ operands, ∀ other ∈ operand.labels, f other = f label → other = label) :
    owners (f label) (operands.map (Operand.relabel f)) = owners label operands := by
  have carries : ∀ operand ∈ operands,
      (operand.relabel f).labels.contains (f label) = operand.labels.contains label := by
    intro operand member
    rw [Bool.eq_iff_iff, List.contains_iff_mem, List.contains_iff_mem, Operand.relabel, List.mem_map]
    constructor
    · rintro ⟨other, held, same⟩
      exact apart operand member other held same ▸ held
    · exact fun held => ⟨label, held, rfl⟩
  rw [owners, owners, List.filter_map, List.map_map]
  exact congrArg (List.map Operand.tensor) (List.filter_congr carries)

namespace Contraction

theorem find?_unbound {c : Contraction} (bound : ∀ label ∈ c.kept, label ∈ c.labels) :
    c.kept.find? (fun label => !c.labels.eraseDups.contains label) = none := by
  rw [List.find?_eq_none]
  intro label member
  simp [bound label member]

/-- Renaming fails only for a kept label that labels no axis: the checks that are made
once more have been passed before. -/
theorem canonical_total {c : Contraction} (bound : ∀ label ∈ c.kept, label ∈ c.labels) :
    ∃ d, c.canonical = .ok d := by
  have apart : ∀ a ∈ c.labels, ∀ b, canonicalLabel c.labels.eraseDups a = canonicalLabel c.labels.eraseDups b →
      a = b := fun a held b same => canonicalLabel_apart (List.mem_eraseDups.mpr held) same
  have nonempty : c.operands.map (Operand.relabel (canonicalLabel c.labels.eraseDups)) ≠ [] := by
    simpa using c.operands_nonempty
  have nodup : (c.kept.map (canonicalLabel c.labels.eraseDups)).Nodup :=
    c.kept_nodup.map_on fun a held b _ => apart a (bound a held) b
  have owned : ∀ label ∈ c.kept.map (canonicalLabel c.labels.eraseDups),
      (owners label (c.operands.map (Operand.relabel (canonicalLabel c.labels.eraseDups)))).length ≤ 1 := by
    intro label member
    obtain ⟨old, held, rfl⟩ := List.mem_map.mp member
    rw [owners_relabel fun operand listed other inside => apart other (List.mem_flatMap_of_mem listed inside) old]
    exact c.kept_owned old held
  refine ⟨⟨_, _, c.output, nonempty, nodup, owned⟩, ?_⟩
  rw [canonical]
  simp only [find?_unbound bound]
  exact ofOperands_self ⟨_, _, c.output, nonempty, nodup, owned⟩

/-- The labels of a renamed contraction are named by their own places. -/
theorem canonicalLabel_canonical {c d : Contraction} (renamed : c.canonical = .ok d) :
    ∀ label ∈ d.labels, canonicalLabel d.labels.eraseDups label = label := by
  rw [canonical_labels renamed]
  intro label member
  obtain ⟨old, held, rfl⟩ := List.mem_map.mp member
  have order : (c.labels.map (canonicalLabel c.labels.eraseDups)).eraseDups =
      c.labels.eraseDups.map (canonicalLabel c.labels.eraseDups) :=
    eraseDups_map (canonicalLabel_eraseDups c.labels)
  rw [order, canonicalLabel, idxOf_map fun a first same => canonicalLabel_apart first same]
  rfl

/-- Labels that are named by their places stay as they are. -/
theorem canonical_of_fixed {c : Contraction}
    (fixed : ∀ label ∈ c.labels, canonicalLabel c.labels.eraseDups label = label)
    (bound : ∀ label ∈ c.kept, label ∈ c.labels) : c.canonical = .ok c := by
  have kept : c.kept.map (canonicalLabel c.labels.eraseDups) = c.kept :=
    (List.map_congr_left fun label member => fixed label (bound label member)).trans (List.map_id _)
  have operands : c.operands.map (Operand.relabel (canonicalLabel c.labels.eraseDups)) = c.operands := by
    refine (List.map_congr_left fun operand member => ?_).trans (List.map_id _)
    have labels : operand.labels.map (canonicalLabel c.labels.eraseDups) = operand.labels :=
      (List.map_congr_left fun label held => fixed label (List.mem_flatMap_of_mem member held)).trans
        (List.map_id _)
    rw [Operand.relabel, labels]
    rfl
  rw [canonical]
  simp only [find?_unbound bound, operands, kept]
  exact c.ofOperands_self

theorem canonical_idempotent {c d : Contraction} (renamed : c.canonical = .ok d) :
    d.canonical = .ok d :=
  canonical_of_fixed (canonicalLabel_canonical renamed) (canonical_kept renamed)

/-- Places are counted from zero. -/
theorem canonical_nonneg {c d : Contraction} (renamed : c.canonical = .ok d) :
    ∀ label ∈ d.labels ++ d.kept, 0 ≤ label := by
  intro label member
  have labelled : label ∈ d.labels := by
    rcases List.mem_append.mp member with held | kept
    · exact held
    · exact canonical_kept renamed label kept
  rw [← canonicalLabel_canonical renamed label labelled]
  exact Int.natCast_nonneg _

end Contraction
end TensorNetwork
