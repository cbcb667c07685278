import TensorNetwork.Proofs.Construction
import TensorNetwork.Proofs.Shape.Stationary

/-! Transpositions accept exactly the permutations. A list of as many entries as there are
axes that misses none of them repeats none and names nothing else. So every axis of the
result is one of the input's, all of them occur, and the inverse permutation, which is
accepted as well, puts them back. -/
namespace TensorNetwork

namespace Transposition
variable {α : Type} {items : List α}

theorem make_of_complete {input output : TensorId} {permutation : List Int}
    (complete : ∀ axis, axis < permutation.length → (axis : Int) ∈ permutation) :
    make input permutation output = .ok ⟨input, permutation, output, complete⟩ :=
  make_self ⟨input, permutation, output, complete⟩

/-- A refusal names the smallest axis that no entry names. -/
theorem make_eq_error {input output : TensorId} {permutation : List Int} {e : Error}
    (refused : make input permutation output = .error e) :
    ∃ axis, axis < permutation.length ∧ (axis : Int) ∉ permutation ∧
      (∀ i, i < axis → (i : Int) ∈ permutation) ∧ e = .missingAxis permutation axis := by
  unfold make at refused
  split at refused
  · rename_i axis found
    cases refused
    obtain ⟨missing, bound, earlier⟩ := List.find?_range_eq_some.mp found
    refine ⟨axis, List.mem_range.mp bound, ?_, fun i below => ?_, rfl⟩
    · simpa using missing
    · simpa using earlier i below
  · cases refused

theorem make_iff_perm {input output : TensorId} {permutation : List Int} :
    (∃ t, make input permutation output = .ok t) ↔
      permutation.Perm ((List.range permutation.length).map Int.ofNat) := by
  constructor
  · rintro ⟨t, built⟩
    obtain ⟨-, rfl, -⟩ := make_eq_ok built
    exact t.permutation_perm
  · intro perm
    refine ⟨_, make_of_complete fun axis bound => perm.mem_iff.mpr ?_⟩
    exact List.mem_map.mpr ⟨axis, List.mem_range.mpr bound, rfl⟩

theorem permutation_nodup (t : Transposition) : t.permutation.Nodup := by
  rw [t.permutation_perm.nodup_iff]
  exact List.nodup_range.map fun _ _ => Int.ofNat.inj

/-- Neighbouring items, looked up one by one. -/
theorem filterMap_range' (items : List α) (start count : Nat) :
    ((List.range' start count).map Int.ofNat).filterMap (fun axis => items[axis.toNat]?) =
      (items.drop start).take count := by
  induction count generalizing start with
  | zero => rw [List.take_zero, List.range'_zero, List.map_nil, List.filterMap_nil]
  | succ count ih =>
    rw [List.range'_succ, List.map_cons, List.filterMap_cons, ih]
    by_cases bound : start < items.length
    · rw [Int.ofNat_eq_natCast, Int.toNat_natCast, List.getElem?_eq_getElem bound, List.drop_eq_getElem_cons bound,
        List.take_succ_cons]
    · have beyond : items.length ≤ start := Nat.le_of_not_lt bound
      rw [Int.ofNat_eq_natCast, Int.toNat_natCast, List.getElem?_eq_none beyond, List.drop_of_length_le beyond,
        List.drop_of_length_le (Nat.le_succ_of_le beyond), List.take_nil, List.take_nil]

theorem arrange_perm (t : Transposition) (sized : items.length = t.rank) : (t.arrange items).Perm items := by
  have all := filterMap_range' items 0 t.rank
  rw [List.drop_zero, ← sized, List.take_length, ← List.range_eq_range', sized] at all
  exact (t.permutation_perm.filterMap _).trans (List.Perm.of_eq all)

/-- For every axis the position of the entry that names it. -/
def inverse (permutation : List Int) : List Int :=
  (List.range permutation.length).map fun axis : Nat => (permutation.idxOf (axis : Int) : Int)

theorem inverse_length (permutation : List Int) : (inverse permutation).length = permutation.length := by
  rw [inverse, List.length_map, List.length_range]

/-- The inverse finds every entry again. -/
theorem getElem?_inverse (t : Transposition) {i : Nat} {axis : Int} (entry : t.permutation[i]? = some axis) :
    (inverse t.permutation)[axis.toNat]? = some (i : Int) := by
  obtain ⟨low, high⟩ := t.bounded (List.mem_of_getElem? entry)
  obtain ⟨bound, rfl⟩ := List.getElem?_eq_some_iff.mp entry
  have inside : t.permutation[i].toNat < t.permutation.length := by
    rw [rank] at high
    omega
  rw [inverse, List.getElem?_map, List.getElem?_range inside, Option.map_some, Int.toNat_of_nonneg low,
    t.permutation_nodup.idxOf_getElem]

theorem inverse_complete (t : Transposition) :
    ∀ axis, axis < (inverse t.permutation).length → (axis : Int) ∈ inverse t.permutation := by
  intro axis bound
  rw [inverse_length] at bound
  exact List.mem_of_getElem? (t.getElem?_inverse (List.getElem?_eq_getElem bound))

/-- The inverse puts the items back. -/
theorem arrange_inverse (t back : Transposition) (inverted : back.permutation = inverse t.permutation)
    (sized : items.length = t.rank) : back.arrange (t.arrange items) = items := by
  have ranks : t.rank = back.rank := by rw [rank, rank, inverted, inverse_length]
  have arranged : (t.arrange items).length = back.rank := by rw [t.arrange_length sized, ranks]
  apply List.ext_getElem?
  intro axis
  by_cases bound : axis < t.rank
  · obtain ⟨i, entry⟩ := List.getElem?_of_mem (t.complete axis bound)
    have named : back.permutation[axis]? = some (i : Int) := by
      rw [inverted]
      exact t.getElem?_inverse entry
    rw [back.getElem?_arrange arranged named, Int.toNat_natCast, t.getElem?_arrange sized entry, Int.toNat_natCast]
  · rw [List.getElem?_eq_none, List.getElem?_eq_none]
    · omega
    · rw [back.arrange_length arranged]
      omega

end Transposition

namespace ShapeTable
variable {ε : Type} [ExtentAlgebra ε] {p : Program} {given : GivenShapes ε} {table next : ShapeTable ε}
  {shape : Shape ε}

/-- Shapes of a longer program are worked out from those of its beginning. -/
theorem infer_append (worked : infer p given = .ok table) (ops : List Operation) :
    infer ⟨p.operations ++ ops⟩ given = ops.foldlM step table := by
  obtain ⟨start, begun, run⟩ := Outcome.bind_eq_ok.mp worked
  rw [infer, begun]
  exact (List.foldlM_append ..).trans (by rw [run]; rfl)

theorem transpose_used {t : Transposition} (used : table.use t.input t.rank = .ok (shape, next)) :
    table.transpose t = .ok (next.assign t.output (t.arrange shape)) := by
  rw [transpose, used]
  rfl

theorem infer_transposed {t : Transposition} (worked : infer p given = .ok table)
    (used : table.use t.input t.rank = .ok (shape, next)) :
    infer ⟨p.operations ++ [.transposition t]⟩ given = .ok (next.assign t.output (t.arrange shape)) := by
  rw [infer_append worked, List.foldlM_cons, step, transpose_used used]
  rfl

/-- What follows a transposition finds the shape that it made. -/
theorem use_transposed {t : Transposition} (used : table.use t.input t.rank = .ok (shape, next)) :
    (next.assign t.output (t.arrange shape)).use t.output t.rank =
      .ok (t.arrange shape, next.assign t.output (t.arrange shape)) := by
  have known : (next.assign t.output (t.arrange shape)).shapes.get? t.output = some (t.arrange shape) := by
    rw [get?_assign, if_pos rfl]
  rw [← t.arrange_length (use_spec used).1]
  exact use_known known

end ShapeTable

/-- A shape with its axes in the order that a permutation gives. -/
structure Shape.Rearranged {ε : Type} (permutation : List Int) (shape result : Shape ε) : Prop where
  length : result.length = permutation.length
  axes : ∀ (i : Nat) (axis : Int), permutation[i]? = some axis →
    0 ≤ axis ∧ ∃ extent, shape[axis.toNat]? = some extent ∧ result[i]? = some extent
  perm : result.Perm shape

theorem Transposition.rearranged (t : Transposition) {ε : Type} {shape : Shape ε} (sized : shape.length = t.rank) :
    Shape.Rearranged t.permutation shape (t.arrange shape) := by
  refine ⟨t.arrange_length sized, fun i axis entry => ?_, t.arrange_perm sized⟩
  obtain ⟨low, high⟩ := t.bounded (List.mem_of_getElem? entry)
  have bound : axis.toNat < shape.length := by omega
  exact ⟨low, shape[axis.toNat], List.getElem?_eq_getElem bound, by
    rw [t.getElem?_arrange sized entry, List.getElem?_eq_getElem bound]⟩

namespace Transposition
open ShapeTable (infer)

/-- A transposition is built exactly for a permutation of the axes; otherwise the smallest
missing axis is named. Whatever shape of that rank the input has, over any extents, the
shape of the output has every axis and is a rearrangement of it, and the inverse
permutation is accepted and leads back to the shape of the input. -/
theorem accepts_exactly_permutations (ε : Type) [ExtentAlgebra ε] (input output : TensorId)
    (permutation : List Int) :
    ((∃ t, make input permutation output = .ok t) ↔
      permutation.Perm ((List.range permutation.length).map Int.ofNat)) ∧
    (∀ e, make input permutation output = .error e → e.kind = .structural ∧
      ∃ axis : Nat, axis < permutation.length ∧ (axis : Int) ∉ permutation ∧
        (∀ i : Nat, i < axis → (i : Int) ∈ permutation) ∧
        e.message = "Invalid permutation " ++ Text.bracketedInts permutation ++ ": entry " ++ toString axis ++
          " missing") ∧
    ∀ t, make input permutation output = .ok t → ∀ restored,
      ∃ back, make output (inverse permutation) restored = .ok back ∧
        (∀ (i : Nat) (axis : Int), permutation[i]? = some axis →
          (inverse permutation)[axis.toNat]? = some (i : Int)) ∧
        ∀ p (given : GivenShapes ε) table next shape, infer p given = .ok table →
          table.use input permutation.length = .ok (shape, next) →
          ∃ turned result final, infer ⟨p.operations ++ [.transposition t]⟩ given = .ok turned ∧
            turned.shape output = .ok result ∧ Shape.Rearranged permutation shape result ∧
            infer ⟨p.operations ++ [.transposition t, .transposition back]⟩ given = .ok final ∧
            final.shape restored = .ok shape := by
  refine ⟨make_iff_perm, fun e refused => ⟨make_structural refused, ?_⟩, fun t built restored => ?_⟩
  · obtain ⟨axis, bound, missing, smallest, rfl⟩ := make_eq_error refused
    have text : (Error.missingAxis permutation axis).message =
        "Invalid permutation " ++ Text.bracketedInts permutation ++ (": entry " ++ toString axis ++ " missing") := rfl
    exact ⟨axis, bound, missing, smallest, by rw [text, ← String.append_assoc, ← String.append_assoc]⟩
  · obtain ⟨rfl, rfl, rfl⟩ := make_eq_ok built
    refine ⟨_, make_of_complete t.inverse_complete, fun i axis => t.getElem?_inverse, ?_⟩
    intro p given table next shape worked used
    have sized := (ShapeTable.use_spec used).1
    have first := ShapeTable.infer_transposed worked used
    have ranks : t.rank = (inverse t.permutation).length := by rw [rank, inverse_length]
    have again := ShapeTable.use_transposed used
    rw [ranks] at again
    have second := ShapeTable.infer_transposed
      (t := ⟨t.output, inverse t.permutation, restored, t.inverse_complete⟩) first again
    rw [List.append_assoc, List.singleton_append, arrange_inverse t _ rfl sized] at second
    refine ⟨_, t.arrange shape, _, first, ?_, t.rearranged sized, second, ?_⟩
    · rw [ShapeTable.shape_eq_ok, ShapeTable.get?_assign, if_pos rfl]
    · rw [ShapeTable.shape_eq_ok, ShapeTable.get?_assign, if_pos rfl]

/-- The last axis is moved to the front and back again. -/
theorem accepts_exactly_permutations_cycle :
    let given : GivenShapes Extent := [(0, [.datum (.text "n"), .datum (.int 4), .datum (.text "m")])]
    ∃ t back final, make 0 [2, 0, 1] 1 = .ok t ∧ make 1 [1, 2, 0] 2 = .ok back ∧
      infer ⟨[.transposition t, .transposition back]⟩ given = .ok final ∧
      final.shape 2 = .ok [.symbol "n", .ofInt 4, .symbol "m"] := by
  intro given
  obtain ⟨accepted, -, turns⟩ := accepts_exactly_permutations Extent 0 1 [2, 0, 1]
  obtain ⟨t, built⟩ := accepted.mpr (by decide)
  obtain ⟨back, inverted, -, restores⟩ := turns t built 2
  obtain ⟨-, -, final, -, -, -, worked, restored⟩ := restores Program.empty given _ _ _ rfl rfl
  exact ⟨t, back, final, built, inverted, worked, restored⟩

end Transposition

end TensorNetwork
