import Mathlib.Data.Finset.Card
import Mathlib.Data.Finset.Dedup
import TensorNetwork.Proofs.Operation.Equivalence

/-! Canonical forms. Read in order, the labels of a canonical contraction are numbers that
grow by one at a time: each has been used before or is the next. Renaming reaches such a
form unless a label is kept that labels no axis, and leaves such forms alone. -/
namespace TensorNetwork

theorem length_eraseDups {α : Type} [DecidableEq α] (l : List α) : l.eraseDups.length = l.toFinset.card := by
  have same : l.eraseDups.toFinset = l.toFinset := by
    ext a
    simp
  rw [← same, List.toFinset_card_of_nodup (nodup_eraseDups l)]

/-- Each label has been used before or is the next number. -/
def RestrictedGrowth (labels : List Label) : Prop :=
  ∀ before label after, labels = before ++ label :: after → 0 ≤ label ∧ label ≤ before.toFinset.card

namespace RestrictedGrowth
variable {labels : List Label}

/-- Labels that grow so appear as 0, 1, 2, and so on. -/
theorem eraseDups_eq (growth : RestrictedGrowth labels) :
    labels.eraseDups = (List.range labels.toFinset.card).map Int.ofNat := by
  induction labels using List.reverseRecOn with
  | nil => rfl
  | append_singleton before label ih =>
    have earlier := ih fun front a back split => growth front a (back ++ [label]) (by simp [split])
    obtain ⟨low, high⟩ := growth before label [] rfl
    rw [eraseDups_concat]
    split
    · rename_i held
      have same : (before ++ [label]).toFinset = before.toFinset := by simp [held]
      rw [same, earlier]
    · rename_i held
      have next : label = before.toFinset.card := by
        by_contra apart
        have listed : label ∈ before.eraseDups := by
          rw [earlier]
          exact List.mem_map.mpr ⟨label.toNat, List.mem_range.mpr (by lia), Int.toNat_of_nonneg low⟩
        exact held (List.mem_eraseDups.mp listed)
      have grown : (before ++ [label]).toFinset.card = before.toFinset.card + 1 := by
        rw [← length_eraseDups, eraseDups_concat, if_neg held, List.length_append, length_eraseDups]
        rfl
      rw [grown, List.range_succ, List.map_append, earlier]
      simp [← next]

theorem mem_iff (growth : RestrictedGrowth labels) {label : Label} :
    label ∈ labels ↔ 0 ≤ label ∧ label < labels.toFinset.card := by
  rw [← List.mem_eraseDups, growth.eraseDups_eq, List.mem_map]
  constructor
  · rintro ⟨i, bound, rfl⟩
    have := List.mem_range.mp bound
    exact ⟨Int.natCast_nonneg i, Int.ofNat_lt.mpr this⟩
  · rintro ⟨low, high⟩
    exact ⟨label.toNat, List.mem_range.mpr (by lia), Int.toNat_of_nonneg low⟩

end RestrictedGrowth

/-- Labels grow so exactly if each is named by its place. -/
theorem restrictedGrowth_iff {labels : List Label} :
    RestrictedGrowth labels ↔ ∀ label ∈ labels, canonicalLabel labels.eraseDups label = label := by
  constructor
  · intro growth label held
    obtain ⟨low, high⟩ := growth.mem_iff.mp held
    obtain ⟨i, rfl⟩ := Int.eq_ofNat_of_zero_le low
    have bound : i < (List.range labels.toFinset.card).length := by
      rw [List.length_range]
      lia
    have place := List.nodup_range.idxOf_getElem i bound
    rw [List.getElem_range] at place
    rw [canonicalLabel, growth.eraseDups_eq]
    exact congrArg Int.ofNat ((idxOf_map fun a _ same => Int.ofNat.inj same).trans place)
  · rintro named before label after rfl
    have place := named label (by simp)
    rw [← place]
    refine ⟨Int.natCast_nonneg _, Int.ofNat_le.mpr ?_⟩
    rw [List.eraseDups_append, ← length_eraseDups]
    by_cases held : label ∈ before
    · rw [List.idxOf_append_of_mem (List.mem_eraseDups.mpr held)]
      exact (List.idxOf_lt_length_of_mem (List.mem_eraseDups.mpr held)).le
    · rw [List.idxOf_append_of_notMem fun early => held (List.mem_eraseDups.mp early)]
      simp [List.removeAll, List.eraseDups_cons, held]

instance : DecidablePred RestrictedGrowth := fun _ => decidable_of_iff _ restrictedGrowth_iff.symm

namespace Contraction
variable {c d : Contraction}

/-- Renaming is refused for the first kept label that labels no axis, and for nothing else. -/
theorem canonical_eq_error {e : Error} :
    c.canonical = .error e ↔ ∃ before label after, c.kept = before ++ label :: after ∧
      (∀ earlier ∈ before, earlier ∈ c.labels) ∧ label ∉ c.labels ∧ e = .unboundLabel label := by
  have first : ∀ label, c.kept.find? (fun label => !c.labels.eraseDups.contains label) = some label ↔
      label ∉ c.labels ∧ ∃ before after, c.kept = before ++ label :: after ∧
        ∀ earlier ∈ before, earlier ∈ c.labels := by
    simp [List.find?_eq_some_iff_append]
  cases found : c.kept.find? (fun label => !c.labels.eraseDups.contains label) with
  | none =>
    have bound : ∀ label ∈ c.kept, label ∈ c.labels := by simpa using List.find?_eq_none.mp found
    obtain ⟨d, renamed⟩ := canonical_total bound
    rw [renamed]
    constructor
    · nofun
    · rintro ⟨before, label, after, split, -, missing, -⟩
      exact absurd (bound label (by simp [split])) missing
  | some label =>
    have refused : c.canonical = .error (.unboundLabel label) := by
      rw [canonical]
      simp only [found]
    rw [refused]
    constructor
    · rintro ⟨⟩
      obtain ⟨missing, before, after, split, earlier⟩ := (first label).mp found
      exact ⟨before, label, after, split, earlier, missing, rfl⟩
    · rintro ⟨before, other, after, split, earlier, missing, rfl⟩
      have same := found.symm.trans ((first other).mpr ⟨missing, before, after, split, earlier⟩)
      rw [Option.some.inj same]

theorem mem_labels_iff {label : Label} : label ∈ c.labels ↔ ∃ subscript ∈ c.subscripts, label ∈ subscript := by
  rw [labels_eq_flatten, List.mem_flatten]

theorem canonical_restrictedGrowth (renamed : c.canonical = .ok d) : RestrictedGrowth d.labels :=
  restrictedGrowth_iff.mpr (canonicalLabel_canonical renamed)

/-- A contraction is its own canonical form exactly if its labels grow so. -/
theorem canonical_eq_self_iff (renamed : c.canonical = .ok d) : d = c ↔ RestrictedGrowth c.labels := by
  constructor
  · rintro rfl
    exact canonical_restrictedGrowth renamed
  · intro growth
    obtain ⟨-, -, -, bound⟩ := canonical_eq_ok renamed
    have fixed := canonical_of_fixed (restrictedGrowth_iff.mp growth) bound
    exact Except.ok.inj (renamed.symm.trans fixed)

/-- Renaming fails exactly if a kept label labels no axis, and then names the first of
these: the checks that a contraction has passed are passed again. Otherwise it keeps the
tensors and the numbers of labels, and the labels become 0, 1, 2, … in the order in which
they appear. This is the form that renaming does not change. -/
theorem canonical_specification (c : Contraction) :
    ((∃ e, c.canonical = .error e) ↔ ∃ label ∈ c.kept, ∀ subscript ∈ c.subscripts, label ∉ subscript) ∧
    (∀ e, c.canonical = .error e → e.kind = .labelReference ∧
      ∃ before label after, c.kept = before ++ label :: after ∧
        (∀ earlier ∈ before, ∃ subscript ∈ c.subscripts, earlier ∈ subscript) ∧
        (∀ subscript ∈ c.subscripts, label ∉ subscript) ∧ e = .unboundLabel label) ∧
    ∀ d, c.canonical = .ok d →
      d.inputs = c.inputs ∧ d.output = c.output ∧
      d.subscripts.map List.length = c.subscripts.map List.length ∧ d.kept.length = c.kept.length ∧
      RestrictedGrowth d.labels ∧
      (∀ label, label ∈ d.labels ↔ 0 ≤ label ∧ label < d.labels.toFinset.card) ∧
      d.canonical = .ok d ∧ (d = c ↔ RestrictedGrowth c.labels) := by
  have unlabelled : ∀ label, label ∉ c.labels ↔ ∀ subscript ∈ c.subscripts, label ∉ subscript := by
    intro label
    rw [mem_labels_iff]
    simp
  refine ⟨⟨?_, ?_⟩, fun e refused => ?_, fun d renamed => ?_⟩
  · rintro ⟨e, refused⟩
    obtain ⟨before, label, after, split, -, missing, -⟩ := canonical_eq_error.mp refused
    exact ⟨label, by simp [split], (unlabelled label).mp missing⟩
  · rintro ⟨label, member, missing⟩
    cases renamed : c.canonical with
    | error e => exact ⟨e, rfl⟩
    | ok d =>
      obtain ⟨-, -, -, bound⟩ := canonical_eq_ok renamed
      exact absurd (bound label member) ((unlabelled label).mpr missing)
  · obtain ⟨before, label, after, split, earlier, missing, rfl⟩ := canonical_eq_error.mp refused
    exact ⟨rfl, before, label, after, split, fun a member => mem_labels_iff.mp (earlier a member),
      (unlabelled label).mp missing, rfl⟩
  · obtain ⟨-, kept, output, -⟩ := canonical_eq_ok renamed
    have growth := canonical_restrictedGrowth renamed
    refine ⟨canonical_inputs renamed, output, ?_, ?_, growth, fun label => growth.mem_iff,
      canonical_idempotent renamed, canonical_eq_self_iff renamed⟩
    · simp [canonical_subscripts renamed, Function.comp_def]
    · rw [kept, List.length_map]

/-- A trace, and a tensor that is joined to it, with labels of any numbers; two labels
that are kept without labelling an axis. -/
theorem canonical_specification_samples :
    let traced : Contraction := ⟨[⟨6, [8, -3, 8]⟩, ⟨2, [-3, 8, 4]⟩], [4], 7, by decide, by decide, by decide⟩
    let unbound : Contraction := ⟨[⟨6, [8, -3, 8]⟩], [-3, 5, 1], 7, by decide, by decide, by decide⟩
    (∃ d, traced.canonical = .ok d ∧ d.subscripts = [[0, 1, 0], [1, 0, 2]] ∧ d.kept = [2] ∧
      RestrictedGrowth d.labels ∧ d.canonical = .ok d ∧ d ≠ traced) ∧
    unbound.canonical = .error (.unboundLabel 5) ∧
      ∀ subscript ∈ unbound.subscripts, (5 : Label) ∉ subscript := by
  intro traced unbound
  refine ⟨⟨_, rfl, rfl, rfl, ?_⟩, rfl, ?_⟩
  · obtain ⟨-, -, reached⟩ := canonical_specification traced
    obtain ⟨-, -, -, -, growth, -, again, fixed⟩ := reached _ rfl
    exact ⟨growth, again, fun same => absurd (fixed.mp same) (by decide)⟩
  · obtain ⟨-, named, -⟩ := canonical_specification unbound
    obtain ⟨-, before, label, after, -, -, missing, same⟩ := named _ rfl
    cases same
    exact missing

end Contraction
end TensorNetwork
