import TensorNetwork.Proofs.Extent.Lines
import TensorNetwork.Proofs.Shape.Valuation

/-! Properties of extents that working out shapes hands on. Extents come from the given
shapes, are invented as symbols, or are products and smallest members of others; a
property that these inherit holds of all shapes if it holds of the given ones. -/
namespace TensorNetwork.ShapeTable

/-- A property that invented symbols have and that products and smallest members inherit. -/
structure Hereditary {ε : Type} [ExtentAlgebra ε] (P : ε → Prop) : Prop where
  fresh : ∀ tensor axis, P (freshSymbol tensor axis)
  product : ∀ extents : List ε, (∀ a ∈ extents, P a) → P (ExtentAlgebra.product extents)
  least : ∀ extents : List ε, (∀ a ∈ extents, P a) → P (ExtentAlgebra.least extents)

variable {ε : Type} {P : ε → Prop} {table next : ShapeTable ε} {shape : Shape ε}

/-- A property of all extents in a table. -/
def Every (P : ε → Prop) (table : ShapeTable ε) : Prop :=
  ∀ tensor shape, table.shapes.get? tensor = some shape → ∀ a ∈ shape, P a

theorem Every.known (every : table.Every P) {tensor : TensorId} (known : table.shape tensor = .ok shape) :
    ∀ a ∈ shape, P a := every tensor shape (shape_eq_ok.mp known)

theorem Every.assign (every : table.Every P) (tensor : TensorId) (each : ∀ a ∈ shape, P a) :
    (table.assign tensor shape).Every P := by
  intro other held found
  rw [get?_assign] at found
  split at found
  · cases found
    exact each
  · exact every other held found

namespace Hereditary
variable [ExtentAlgebra ε] (hereditary : Hereditary P)
include hereditary

theorem use {tensor : TensorId} {rank : Nat} (every : table.Every P)
    (used : table.use tensor rank = .ok (shape, next)) : (∀ a ∈ shape, P a) ∧ next.Every P := by
  have invented : ∀ a ∈ freshShape tensor rank, P a := by
    intro a member
    obtain ⟨axis, -, rfl⟩ := List.mem_map.mp member
    exact hereditary.fresh tensor axis
  unfold ShapeTable.use at used
  split at used
  · cases used
    exact ⟨invented, every.assign tensor invented⟩
  · rename_i held known
    split at used
    · cases used
      exact ⟨every tensor shape known, every⟩
    · cases used

theorem bindOperands {operands : List Operand} {bound : IntMap ε} (every : table.Every P)
    (run : operands.foldlM bindOperand (table, .empty) = .ok (next, bound)) :
    next.Every P ∧ ∀ label a, bound.get? label = some a → P a := by
  refine Outcome.foldlM_induction
    (P := fun _ state => state.1.Every P ∧ ∀ label a, state.2.get? label = some a → P a)
    ⟨every, by simp⟩ ?_ run
  rintro passed operand rest ⟨table, bound⟩ ⟨reached, bound'⟩ - ⟨held, binds⟩ stepped
  obtain ⟨⟨shape, after⟩, used, stepped⟩ := Outcome.bind_eq_ok.mp stepped
  obtain ⟨bound₁, axes, done⟩ := Outcome.bind_eq_ok.mp stepped
  cases done
  obtain ⟨shaped, kept⟩ := hereditary.use held used
  exact ⟨kept, bindAxes_bound (P := fun _ => P) binds
    (fun axis member => shaped axis.2 (List.of_mem_zip member).2) axes⟩

theorem contract {c : Contraction} (every : table.Every P) (stepped : table.contract c = .ok next) :
    next.Every P := by
  obtain ⟨⟨middle, bound⟩, operands, stepped⟩ := Outcome.bind_eq_ok.mp stepped
  obtain ⟨shape, kept, done⟩ := Outcome.bind_eq_ok.mp stepped
  cases done
  obtain ⟨held, binds⟩ := hereditary.bindOperands every operands
  refine held.assign c.output fun a member => ?_
  obtain ⟨label, -, found⟩ := Outcome.mem_of_mapM kept member
  exact binds label a (keptExtent_eq_ok found)

theorem transpose {t : Transposition} (every : table.Every P) (stepped : table.transpose t = .ok next) :
    next.Every P := by
  obtain ⟨⟨shape, middle⟩, used, done⟩ := Outcome.bind_eq_ok.mp stepped
  cases done
  obtain ⟨shaped, held⟩ := hereditary.use every used
  exact held.assign t.output fun a member => shaped a (t.mem_of_arrange member)

theorem sides (left : Nat) (each : ∀ a ∈ shape, P a) :
    P (ShapeTable.sides left shape).1 ∧ P (ShapeTable.sides left shape).2 :=
  ⟨hereditary.product _ fun a member => each a (List.mem_of_mem_take member),
    hereditary.product _ fun a member => each a (List.mem_of_mem_drop member)⟩

theorem split {s : Split} (every : table.Every P) (stepped : table.split s = .ok next) : next.Every P := by
  obtain ⟨⟨shape, middle⟩, used, done⟩ := Outcome.bind_eq_ok.mp stepped
  cases done
  obtain ⟨shaped, held⟩ := hereditary.use every used
  obtain ⟨rows, columns⟩ := hereditary.sides s.left shaped
  have bonded : P (bond s.left shape) := by
    refine hereditary.least _ ?_
    simpa using ⟨rows, columns⟩
  refine (held.assign s.q fun a member => ?_).assign s.r fun a member => ?_
  · rcases List.mem_append.mp member with here | last
    · exact shaped a (List.mem_of_mem_take here)
    · exact List.mem_singleton.mp last ▸ bonded
  · rcases List.mem_cons.mp member with rfl | here
    · exact bonded
    · exact shaped a (List.mem_of_mem_drop here)

theorem step {op : Operation} (every : table.Every P) (stepped : table.step op = .ok next) : next.Every P := by
  cases op with
  | contraction c => exact hereditary.contract every stepped
  | transposition t => exact hereditary.transpose every stepped
  | split s => exact hereditary.split every stepped
  | foreign f => cases stepped

omit hereditary in
theorem ofGiven {given : GivenShapes ε}
    (supplied : ∀ entry ∈ given, ∀ extent ∈ entry.2, ∀ a, extent.toExtent = .ok a → P a)
    (started : ShapeTable.ofGiven given = .ok table) : table.Every P := by
  obtain ⟨pairs, read, done⟩ := Outcome.bind_eq_ok.mp started
  cases done
  intro tensor shape found a member
  rw [IntMap.get?_ofList] at found
  obtain ⟨pair, last, rfl⟩ := Option.map_eq_some_iff.mp found
  have held : pair ∈ pairs := List.mem_reverse.mp (List.mem_of_find?_eq_some last)
  obtain ⟨entry, listed, shaped⟩ := Outcome.mem_of_mapM read held
  obtain ⟨extents, converted, done⟩ := Outcome.bind_eq_ok.mp shaped
  cases done
  obtain ⟨extent, inside, same⟩ := Outcome.mem_of_mapM converted member
  exact supplied entry listed extent inside a same

/-- All extents that are worked out have a property that the given ones have. -/
theorem infer {p : Program} {given : GivenShapes ε}
    (supplied : ∀ entry ∈ given, ∀ extent ∈ entry.2, ∀ a, extent.toExtent = .ok a → P a)
    (worked : ShapeTable.infer p given = .ok table) : table.Every P := by
  obtain ⟨start, started, run⟩ := Outcome.bind_eq_ok.mp worked
  exact Outcome.foldlM_induction (P := fun _ table => table.Every P) (ofGiven supplied started)
    (fun _ _ _ _ _ _ held stepped => hereditary.step held stepped) run

end Hereditary

/-- To stay on a line is such a property. -/
theorem hereditary_inline (ends : Text.LineEnds) : Hereditary fun a : Extent => ends.Inline a.text where
  fresh tensor axis := by
    have letter : ends.Inline "d" := Text.LineEnds.inline_of_printed (by decide)
    have mark : ends.Inline "_" := Text.LineEnds.inline_of_printed (by decide)
    rw [freshSymbol, Extent.algebra_symbol, Extent.inline_symbol]
    simp only [Text.LineEnds.inline_append]
    exact ⟨⟨⟨letter, Text.LineEnds.inline_int tensor⟩, mark⟩, Text.LineEnds.inline_nat axis⟩
  product _ := Extent.inline_product
  least _ := Extent.inline_least

end TensorNetwork.ShapeTable
