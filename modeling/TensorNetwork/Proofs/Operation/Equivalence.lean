import TensorNetwork.Proofs.Operation.Canonical

/-! Canonical labels decide whether two contractions differ only in the names of
their labels. A renaming that keeps the labels apart is forgotten, since a label
is numbered by its place; conversely labels with one number correspond, and this
correspondence is a renaming. -/
namespace TensorNetwork

/-- Lists that look alike through two views are carried to each other by what
relates members that look alike. -/
theorem map_eq_of_views {α β γ : Type} {f : α → β} {g : α → γ} {h : β → γ} {l : List α} {r : List β}
    (alike : l.map g = r.map h) (carried : ∀ a ∈ l, ∀ b ∈ r, g a = h b → f a = b) : l.map f = r := by
  induction l generalizing r with
  | nil => cases r <;> simp_all
  | cons a rest ih =>
    cases r with
    | nil => cases alike
    | cons b others =>
      obtain ⟨first, later⟩ := List.cons.inj alike
      rw [List.map_cons, carried a List.mem_cons_self b List.mem_cons_self first]
      congr 1
      exact ih later fun x held y other => carried x (List.mem_cons_of_mem _ held) y (List.mem_cons_of_mem _ other)

/-- The label that stands in one order where a label stands in another. -/
def counterpart (order other : List Label) (label : Label) : Label :=
  other.getD (order.idxOf label) label

theorem counterpart_eq {order other : List Label} {a b : Label} (held : b ∈ other)
    (same : canonicalLabel order a = canonicalLabel other b) : counterpart order other a = b := by
  have place : order.idxOf a = other.idxOf b := Int.ofNat.inj same
  have bound : other.idxOf b < other.length := List.idxOf_lt_length_of_mem held
  rw [counterpart, place, List.getD_eq_getElem?_getD, List.getElem?_eq_getElem bound, Option.getD_some]
  exact List.getElem_idxOf bound

/-- A renaming that keeps labels apart keeps their places. -/
theorem canonicalLabel_map {f : Label → Label} {labels : List Label}
    (apart : ∀ a ∈ labels, ∀ b ∈ labels, f a = f b → a = b) {label : Label} (held : label ∈ labels) :
    canonicalLabel (labels.map f).eraseDups (f label) = canonicalLabel labels.eraseDups label := by
  rw [canonicalLabel, canonicalLabel, eraseDups_map apart]
  congr 1
  exact idxOf_map fun a first => apart a (List.mem_eraseDups.mp first) label held

namespace Contraction

theorem ext_parts {c d : Contraction} (inputs : c.inputs = d.inputs) (subscripts : c.subscripts = d.subscripts)
    (kept : c.kept = d.kept) (output : c.output = d.output) : c = d := by
  have zipped : ∀ operands : List Operand,
      List.zipWith Operand.mk (operands.map Operand.tensor) (operands.map Operand.labels) = operands := by
    intro operands
    induction operands with
    | nil => rfl
    | cons operand rest ih => simp [ih]
  have operands : c.operands = d.operands := by
    rw [← zipped c.operands, ← zipped d.operands]
    exact congrArg₂ (List.zipWith Operand.mk) inputs subscripts
  cases c
  cases d
  simp_all

theorem labels_eq_flatten (c : Contraction) : c.labels = c.subscripts.flatten := by
  rw [labels, subscripts, List.flatMap_def]

theorem mem_labels {c : Contraction} {subscript : List Label} {label : Label}
    (listed : subscript ∈ c.subscripts) (held : label ∈ subscript) : label ∈ c.labels := by
  rw [labels_eq_flatten]
  exact List.mem_flatten_of_mem listed held

theorem canonical_inputs {c d : Contraction} (renamed : c.canonical = .ok d) : d.inputs = c.inputs := by
  rw [inputs, (canonical_eq_ok renamed).1, List.map_map]
  rfl

theorem canonical_subscripts {c d : Contraction} (renamed : c.canonical = .ok d) :
    d.subscripts = c.subscripts.map (List.map (canonicalLabel c.labels.eraseDups)) := by
  rw [subscripts, (canonical_eq_ok renamed).1, subscripts, List.map_map, List.map_map]
  rfl

/-- Contractions that differ by a renaming have one canonical form. -/
theorem canonical_of_renaming {a b c d : Contraction} (first : a.canonical = .ok c)
    (second : b.canonical = .ok d) (inputs : a.inputs = b.inputs) (output : a.output = b.output)
    {f : Label → Label} (apart : ∀ x ∈ a.labels, ∀ y ∈ a.labels, f x = f y → x = y)
    (subscripts : a.subscripts.map (List.map f) = b.subscripts) (kept : a.kept.map f = b.kept) : c = d := by
  obtain ⟨-, firstKept, firstOutput, bound⟩ := canonical_eq_ok first
  obtain ⟨-, secondKept, secondOutput, -⟩ := canonical_eq_ok second
  have labels : b.labels = a.labels.map f := by
    rw [labels_eq_flatten, labels_eq_flatten, ← subscripts, List.map_flatten]
  have places : ∀ label ∈ a.labels, canonicalLabel b.labels.eraseDups (f label) =
      canonicalLabel a.labels.eraseDups label := by
    rw [labels]
    exact fun label held => canonicalLabel_map apart held
  apply ext_parts
  · rw [canonical_inputs first, canonical_inputs second, inputs]
  · rw [canonical_subscripts first, canonical_subscripts second, ← subscripts, List.map_map]
    refine List.map_congr_left fun subscript listed => ?_
    rw [Function.comp_apply, List.map_map]
    exact List.map_congr_left fun label held => (places label (mem_labels listed held)).symm
  · rw [firstKept, secondKept, ← kept, List.map_map]
    exact List.map_congr_left fun label held => (places label (bound label held)).symm
  · rw [firstOutput, secondOutput, output]

/-- Contractions with one canonical form correspond label by label. -/
theorem renaming_of_canonical {a b c : Contraction} (first : a.canonical = .ok c) (second : b.canonical = .ok c) :
    ∃ f : Label → Label, (∀ x ∈ a.labels, ∀ y ∈ a.labels, f x = f y → x = y) ∧
      a.subscripts.map (List.map f) = b.subscripts ∧ a.kept.map f = b.kept := by
  obtain ⟨-, firstKept, -, -⟩ := canonical_eq_ok first
  obtain ⟨-, secondKept, -, bound⟩ := canonical_eq_ok second
  have carried : ∀ x, ∀ y ∈ b.labels,
      canonicalLabel a.labels.eraseDups x = canonicalLabel b.labels.eraseDups y →
        counterpart a.labels.eraseDups b.labels.eraseDups x = y :=
    fun x y held same => counterpart_eq (List.mem_eraseDups.mpr held) same
  have subscripts := (canonical_subscripts first).symm.trans (canonical_subscripts second)
  refine ⟨counterpart a.labels.eraseDups b.labels.eraseDups, fun x here y there same => ?_, ?_, ?_⟩
  · -- Both labels have counterparts in `b`, and these tell their numbers.
    have numbers := (canonical_labels first).symm.trans (canonical_labels second)
    have counterparted : ∀ label ∈ a.labels, ∃ other ∈ b.labels,
        canonicalLabel a.labels.eraseDups label = canonicalLabel b.labels.eraseDups other := by
      intro label held
      have numbered := List.mem_map_of_mem (f := canonicalLabel a.labels.eraseDups) held
      rw [numbers] at numbered
      obtain ⟨other, found, number⟩ := List.mem_map.mp numbered
      exact ⟨other, found, number.symm⟩
    obtain ⟨x', foundX, numberX⟩ := counterparted x here
    obtain ⟨y', foundY, numberY⟩ := counterparted y there
    rw [carried x x' foundX numberX, carried y y' foundY numberY] at same
    subst same
    exact canonicalLabel_apart (List.mem_eraseDups.mpr here) (numberX.trans numberY.symm)
  · refine map_eq_of_views subscripts fun subscript _ other listed alike => ?_
    exact map_eq_of_views alike fun x _ y held same => carried x y (mem_labels listed held) same
  · exact map_eq_of_views (firstKept.symm.trans secondKept) fun x _ y held same => carried x y (bound y held) same

/-- Two contractions have one canonical form exactly if they join the same tensors
to the same output and a renaming that keeps the labels apart carries one to the
other. -/
theorem canonical_eq_iff_renaming {a b c d : Contraction} (first : a.canonical = .ok c)
    (second : b.canonical = .ok d) :
    c = d ↔ a.inputs = b.inputs ∧ a.output = b.output ∧
      ∃ f : Label → Label,
        (∀ x ∈ a.labels ++ a.kept, ∀ y ∈ a.labels ++ a.kept, f x = f y → x = y) ∧
        a.subscripts.map (List.map f) = b.subscripts ∧ a.kept.map f = b.kept := by
  obtain ⟨-, -, firstOutput, bound⟩ := canonical_eq_ok first
  obtain ⟨-, -, secondOutput, -⟩ := canonical_eq_ok second
  have labelled : ∀ label ∈ a.labels ++ a.kept, label ∈ a.labels := fun label member =>
    (List.mem_append.mp member).elim id (bound label)
  constructor
  · rintro rfl
    obtain ⟨f, apart, subscripts, kept⟩ := renaming_of_canonical first second
    exact ⟨(canonical_inputs first).symm.trans (canonical_inputs second), firstOutput.symm.trans secondOutput, f,
      fun x here y there => apart x (labelled x here) y (labelled y there), subscripts, kept⟩
  · rintro ⟨inputs, output, f, apart, subscripts, kept⟩
    exact canonical_of_renaming first second inputs output
      (fun x here y there => apart x (List.mem_append_left _ here) y (List.mem_append_left _ there))
      subscripts kept

/-- A trace of one tensor against another, with the labels of an editor and with
others, in another order of their numbers. -/
theorem canonical_eq_iff_renaming_trace :
    let a : Contraction := ⟨[⟨3, [9, -2, 9]⟩, ⟨1, [5, -2]⟩], [5], 4, by decide, by decide, by decide⟩
    let b : Contraction := ⟨[⟨3, [0, 8, 0]⟩, ⟨1, [1, 8]⟩], [1], 4, by decide, by decide, by decide⟩
    let c : Contraction := ⟨[⟨3, [0, 1, 0]⟩, ⟨1, [2, 1]⟩], [2], 4, by decide, by decide, by decide⟩
    a.canonical = .ok c ∧ b.canonical = .ok c ∧
      ∃ f : Label → Label, f 9 = 0 ∧ f (-2) = 8 ∧ f 5 = 1 ∧
        a.subscripts.map (List.map f) = b.subscripts := by
  intro a b c
  refine ⟨rfl, rfl, ?_⟩
  obtain ⟨-, -, f, -, subscripts, -⟩ :=
    (canonical_eq_iff_renaming (a := a) (b := b) (c := c) (d := c) rfl rfl).mp rfl
  have spelled : [[f 9, f (-2), f 9], [f 5, f (-2)]] = [[0, 8, 0], [1, 8]] := subscripts
  simp only [List.cons.injEq] at spelled
  exact ⟨f, spelled.1.1, spelled.1.2.1, spelled.2.1.1, subscripts⟩

end Contraction
end TensorNetwork
