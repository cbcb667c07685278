import TensorNetwork.Proofs.Extent.Order
import TensorNetwork.Proofs.Extent.Term
import TensorNetwork.Proofs.Shape.Transposition

/-! Splits and the order of axes. The bond of a split is as large as the smaller side of a
matrix whose sides are products of extents. A transposition that only changes the order
of the axes on each side, or that exchanges the sides as well, leaves both products
alone, and with them the bond. -/
namespace TensorNetwork

namespace Transposition

/-- The first `left` axes come from the first `left` axes. As no axis is named twice, they
are these axes in some order. -/
def KeepsSides (t : Transposition) (left : Nat) : Prop := ∀ axis ∈ t.permutation.take left, axis < left

/-- The axes that do not come first, in some order, come before the first `left` ones. -/
def ExchangesSides (t : Transposition) (left : Nat) : Prop :=
  ∀ axis ∈ t.permutation.take (t.rank - left), (left : Int) ≤ axis

instance (t : Transposition) (left : Nat) : Decidable (t.KeepsSides left) :=
  inferInstanceAs (Decidable (∀ axis ∈ _, _))

instance (t : Transposition) (left : Nat) : Decidable (t.ExchangesSides left) :=
  inferInstanceAs (Decidable (∀ axis ∈ _, _))

variable {α : Type} {items : List α} {t : Transposition} {left : Nat}

/-- As many axes from a block as the block has are all of its axes. -/
theorem take_permutation_perm (start count : Nat) (bounded : count ≤ t.permutation.length)
    (block : ∀ axis ∈ t.permutation.take count, (start : Int) ≤ axis ∧ axis < (start + count : Nat)) :
    (t.permutation.take count).Perm ((List.range' start count).map Int.ofNat) := by
  have nodup : (t.permutation.take count).Nodup := t.permutation_nodup.sublist (List.take_sublist _ _)
  have subset : t.permutation.take count ⊆ (List.range' start count).map Int.ofNat := by
    intro axis member
    obtain ⟨low, high⟩ := block axis member
    refine List.mem_map.mpr ⟨axis.toNat, List.mem_range'_1.mpr ⟨by omega, by omega⟩, ?_⟩
    exact Int.toNat_of_nonneg (by omega)
  apply (List.subperm_of_subset nodup subset).perm_of_length_le
  rw [List.length_map, List.length_range', List.length_take, Nat.min_eq_left bounded]

theorem take_arrange_perm (start count : Nat) (sized : items.length = t.rank) (bounded : start + count ≤ t.rank)
    (block : ∀ axis ∈ t.permutation.take count, (start : Int) ≤ axis ∧ axis < (start + count : Nat)) :
    ((t.arrange items).take count).Perm ((items.drop start).take count) := by
  have named := take_permutation_perm start count (Nat.le_trans (Nat.le_add_left _ _) bounded) block
  have looked := (named.filterMap fun axis => items[axis.toNat]?).trans
    (List.Perm.of_eq (filterMap_range' items start count))
  have length := looked.length_eq
  rw [List.length_take, List.length_drop, Nat.min_eq_left (by omega)] at length
  rwa [arrange, ← List.take_append_drop count t.permutation, List.filterMap_append, List.take_left' length]

/-- What is left of a rearranged list once its front is taken away. -/
theorem drop_perm {l front back : List α} {count : Nat} (all : l.Perm (front ++ back))
    (first : (l.take count).Perm front) : (l.drop count).Perm back := by
  have whole : (front ++ l.drop count).Perm (front ++ back) := by
    refine (first.symm.append_right _).trans ?_
    rwa [List.take_append_drop]
  exact (List.perm_append_left_iff front).mp whole

theorem KeepsSides.arrange (keeps : t.KeepsSides left) (sized : items.length = t.rank) (inside : left ≤ t.rank) :
    ((t.arrange items).take left).Perm (items.take left) ∧ ((t.arrange items).drop left).Perm (items.drop left) := by
  have first : ((t.arrange items).take left).Perm (items.take left) := by
    refine take_arrange_perm 0 left sized (by omega) fun axis member => ?_
    have low := (t.bounded (List.mem_of_mem_take member)).1
    have high := keeps axis member
    omega
  refine ⟨first, drop_perm ?_ first⟩
  rw [List.take_append_drop]
  exact t.arrange_perm sized

theorem ExchangesSides.arrange (exchanges : t.ExchangesSides left) (sized : items.length = t.rank)
    (inside : left ≤ t.rank) :
    ((t.arrange items).take (t.rank - left)).Perm (items.drop left) ∧
      ((t.arrange items).drop (t.rank - left)).Perm (items.take left) := by
  have first : ((t.arrange items).take (t.rank - left)).Perm (items.drop left) := by
    have whole : (items.drop left).take (t.rank - left) = items.drop left := by
      rw [← sized, ← List.length_drop, List.take_length]
    rw [← whole]
    refine take_arrange_perm left (t.rank - left) sized (by omega) fun axis member => ?_
    have high := (t.bounded (List.mem_of_mem_take member)).2
    have low := exchanges axis member
    omega
  refine ⟨first, drop_perm ?_ first⟩
  refine (t.arrange_perm sized).trans ?_
  exact (List.Perm.of_eq (List.take_append_drop left items).symm).trans List.perm_append_comm

end Transposition

namespace ShapeTable
variable {p : Program} {given : GivenShapes Extent} {table next : ShapeTable Extent} {shape : Shape Extent}
  {t : Transposition} {left : Nat}

theorem sides_kept (keeps : t.KeepsSides left) (sized : shape.length = t.rank) (inside : left ≤ t.rank) :
    sides left (t.arrange shape) = sides left shape := by
  obtain ⟨first, second⟩ := keeps.arrange sized inside
  simp only [sides, Extent.algebra_product]
  rw [Extent.product_perm first, Extent.product_perm second]

theorem sides_exchanged (exchanges : t.ExchangesSides left) (sized : shape.length = t.rank) (inside : left ≤ t.rank) :
    sides (t.rank - left) (t.arrange shape) = (sides left shape).swap := by
  obtain ⟨first, second⟩ := exchanges.arrange sized inside
  simp only [sides, Extent.algebra_product]
  rw [Extent.product_perm first, Extent.product_perm second]
  rfl

theorem bond_eq_of_swap {other : Shape Extent} {left' : Nat} (swapped : sides left' other = (sides left shape).swap) :
    bond left' other = bond left shape := by
  rw [bond, bond, swapped]
  exact Extent.least_perm (List.Perm.swap _ _ _)

/-- What a table tells of a split: the extent of the bond, the first one of the factor `r` and
the last one of the factor `q`, and the sides of the matrix that was factored. Tensors that
were written over do not tell it any more. -/
structure Tells (table : ShapeTable Extent) (s : Split) (matrix : Extent × Extent) (bond : Extent) : Prop where
  first : ∃ others, table.shape s.r = .ok (bond :: others)
  last : s.q ≠ s.r → ∃ others, table.shape s.q = .ok (others ++ [bond])
  matrix : s.input ≠ s.q → s.input ≠ s.r → table.matrixShape s = .ok matrix

theorem infer_split_used {s : Split} (worked : infer p given = .ok table)
    (used : table.use s.input s.rank = .ok (shape, next)) :
    ∃ final, infer ⟨p.operations ++ [.split s]⟩ given = .ok final ∧
      final.Tells s (sides s.left shape) (bond s.left shape) := by
  refine ⟨_, by rw [infer_append worked, List.foldlM_cons, step, split, used]; rfl, ?_, fun apart => ?_,
    fun apart apart' => ?_⟩
  · exact ⟨shape.drop s.left, by rw [shape_eq_ok, get?_assign, if_pos rfl]⟩
  · refine ⟨shape.take s.left, ?_⟩
    rw [shape_eq_ok, get?_assign, if_neg apart.symm, get?_assign, if_pos rfl]
  · refine Outcome.map_eq_ok.mpr ⟨shape, ?_, rfl⟩
    rw [shape_eq_ok, get?_assign, if_neg apart'.symm, get?_assign, if_neg apart.symm]
    exact (use_spec used).2.1

/-- The bond of a split ignores the order of axes. Splitting a tensor after a transposition
that keeps its sides or exchanges them creates a bond of the same extent as splitting the
tensor itself, and the matrix has the same sides, exchanged in the second case. -/
theorem bond_ignores_axis_order (p : Program) (given : GivenShapes Extent) (t : Transposition) (s turned : Split)
    (worked : infer p given = .ok table) (used : table.use t.input t.rank = .ok (shape, next))
    (original : s.input = t.input ∧ s.rank = t.rank)
    (following : turned.input = t.output ∧ turned.rank = t.rank) :
    (∃ plain, infer ⟨p.operations ++ [.split s]⟩ given = .ok plain ∧
      plain.Tells s (sides s.left shape) (bond s.left shape)) ∧
    (t.KeepsSides s.left → turned.left = s.left →
      ∃ final, infer ⟨p.operations ++ [.transposition t, .split turned]⟩ given = .ok final ∧
        final.Tells turned (sides s.left shape) (bond s.left shape)) ∧
    (t.ExchangesSides s.left → turned.left = s.right →
      ∃ final, infer ⟨p.operations ++ [.transposition t, .split turned]⟩ given = .ok final ∧
        final.Tells turned (sides s.left shape).swap (bond s.left shape)) := by
  have sized := (use_spec used).1
  have inside : s.left ≤ t.rank := original.2 ▸ Nat.le_of_lt s.left_lt
  obtain ⟨final, done, tells⟩ := infer_split_used (infer_transposed worked used)
    (by rw [following.1, following.2]; exact use_transposed used)
  rw [List.append_assoc, List.singleton_append] at done
  refine ⟨infer_split_used worked (by rw [original.1, original.2]; exact used), ?_, ?_⟩
  · intro keeps left
    have same := sides_kept keeps sized inside
    rw [left, bond, same] at tells
    exact ⟨final, done, tells⟩
  · intro exchanges left
    have swapped := sides_exchanged exchanges sized inside
    rw [left, Split.right, original.2, bond_eq_of_swap swapped, swapped] at tells
    exact ⟨final, done, tells⟩

/-- Three axes in reverse, one of them with an extent that is itself a product with a smallest
member: the bond is written alike, whichever side comes first. -/
theorem bond_ignores_axis_order_reversed :
    let shared := Extent.Term.product [.int 2, .least (.symbol "b") [.symbol "a", .int 7]]
    let given : GivenShapes Extent := [(0, [.datum (.text "b"), Dimension.given (.term shared), .datum (.text "a")])]
    ∃ t s turned plain final matrix bond, Transposition.make 0 [2, 1, 0] 1 = .ok t ∧ Split.make 0 3 1 2 3 = .ok s ∧
      Split.make 1 3 2 2 3 = .ok turned ∧ t.ExchangesSides s.left ∧ turned.left = s.right ∧
      infer ⟨[.split s]⟩ given = .ok plain ∧ infer ⟨[.transposition t, .split turned]⟩ given = .ok final ∧
      plain.Tells s matrix bond ∧ final.Tells turned matrix.swap bond ∧ bond.text = "Min(b, 2*a*Min(7, a, b))" := by
  intro shared given
  obtain ⟨t, built⟩ : ∃ t, Transposition.make 0 [2, 1, 0] 1 = .ok t := ⟨_, rfl⟩
  obtain ⟨s, split⟩ : ∃ s, Split.make 0 3 1 2 3 = .ok s := ⟨_, rfl⟩
  obtain ⟨turned, following⟩ : ∃ turned, Split.make 1 3 2 2 3 = .ok turned := ⟨_, rfl⟩
  obtain ⟨input, permutation, output⟩ := Transposition.make_eq_ok built
  obtain ⟨ofInput, rank, left, -, -⟩ := Split.make_eq_ok split
  obtain ⟨ofOutput, rank', left', -, -⟩ := Split.make_eq_ok following
  have exchanges : t.ExchangesSides s.left := by
    rw [Transposition.ExchangesSides, Transposition.rank, permutation, left]
    decide
  have lefts : turned.left = s.right := by rw [left', Split.right, rank, left]; rfl
  have ranked : t.rank = 3 := by rw [Transposition.rank, permutation]; rfl
  obtain ⟨⟨plain, worked, tells⟩, -, exchanged⟩ := bond_ignores_axis_order Program.empty given t s turned rfl
    (by rw [input, ranked]; rfl) ⟨ofInput.trans input.symm, rank.trans ranked.symm⟩
    ⟨ofOutput.trans output.symm, rank'.trans ranked.symm⟩
  obtain ⟨final, done, tells'⟩ := exchanged exchanges lefts
  refine ⟨t, s, turned, plain, final, _, _, built, split, following, exchanges, lefts, worked, done, tells, tells', ?_⟩
  rw [left]
  decide +kernel

end ShapeTable
end TensorNetwork
