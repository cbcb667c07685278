import TensorNetwork.Proofs.Arrays.Relabelling

/-! Canonical labels cannot be told from others by what is done with a program. Its
tensors and their roles do not involve labels at all. While shapes are worked out the
labels of a contraction are bound to extents, of whatever kind, and a renaming that keeps
them apart is carried through these bindings; only a message can show it. -/
namespace TensorNetwork

/-- Errors that differ at most in the label which they show. -/
inductive Error.SameButLabel : Error → Error → Prop
  | refl (e : Error) : SameButLabel e e
  | extentMismatch (label other : Label) (tensor : TensorId) (found expected : String) :
      SameButLabel (.extentMismatch label tensor found expected) (.extentMismatch other tensor found expected)
  | unboundLabel (label other : Label) : SameButLabel (.unboundLabel label) (.unboundLabel other)

theorem Error.SameButLabel.kind {e e' : Error} (same : e.SameButLabel e') : e'.kind = e.kind := by
  cases same <;> rfl

namespace ShapeTable
variable {ε : Type} {f : Label → Label} {labels : List Label} {bound bound' : IntMap ε}

/-- Labels have the extents that they have under other names. -/
def Renamed (f : Label → Label) (labels : List Label) (bound bound' : IntMap ε) : Prop :=
  ∀ label ∈ labels, bound'.get? (f label) = bound.get? label

section
variable (apart : ∀ a ∈ labels, ∀ b ∈ labels, f a = f b → a = b)
include apart

theorem Renamed.insert (renamed : Renamed f labels bound bound') {label : Label} (held : label ∈ labels)
    (extent : ε) : Renamed f labels (bound.insert label extent) (bound'.insert (f label) extent) := by
  intro other among
  have same : f label = f other ↔ label = other := ⟨apart label held other among, congrArg f⟩
  rw [IntMap.get?_insert, IntMap.get?_insert, renamed other among]
  simp only [same]

variable [ExtentAlgebra ε]

theorem bindAxis_renamed (tensor : TensorId) {axis : Label × ε} (held : axis.1 ∈ labels)
    (renamed : Renamed f labels bound bound') :
    Outcome.Alike Error.SameButLabel (Renamed f labels) (bindAxis tensor bound axis)
      (bindAxis tensor bound' (Prod.map f id axis)) := by
  simp only [bindAxis, Prod.map_fst, Prod.map_snd, id, renamed axis.1 held]
  split
  · exact .ok (renamed.insert apart held axis.2)
  · split
    · exact .error (.extentMismatch ..)
    · exact .ok renamed

theorem bindOperand_renamed {operand : Operand} (held : ∀ label ∈ operand.labels, label ∈ labels)
    {state other : ShapeTable ε × IntMap ε} (tables : state.1 = other.1)
    (renamed : Renamed f labels state.2 other.2) :
    Outcome.Alike Error.SameButLabel (fun a b => a.1 = b.1 ∧ Renamed f labels a.2 b.2)
      (bindOperand state operand) (bindOperand other (operand.relabel f)) := by
  have used : other.1.use (operand.relabel f).tensor (operand.relabel f).labels.length =
      state.1.use operand.tensor operand.labels.length := by
    simp [Operand.relabel, tables]
  rw [bindOperand, bindOperand, used]
  refine (Outcome.Alike.refl .refl _).bind ?_
  rintro ⟨shape, table⟩ _ rfl
  refine Outcome.Alike.bind (R := Renamed f labels) ?_ fun a b names => .ok ⟨rfl, names⟩
  have axes : (operand.relabel f).labels.zip shape = (operand.labels.zip shape).map (Prod.map f id) :=
    List.zip_map_left
  rw [axes]
  refine Outcome.Alike.foldlM (Q := fun a b => a.1 ∈ labels ∧ b = Prod.map f id a) ?_ ?_ renamed
  · rintro s t a _ names ⟨among, rfl⟩
    exact bindAxis_renamed apart operand.tensor among names
  · rw [List.forall₂_map_right_iff, List.forall₂_same]
    exact fun axis member => ⟨held _ (List.of_mem_zip member).1, rfl⟩

end

theorem keptExtent_renamed (renamed : Renamed f labels bound bound') {label : Label} (held : label ∈ labels) :
    Outcome.Alike Error.SameButLabel Eq (keptExtent bound label) (keptExtent bound' (f label)) := by
  simp only [keptExtent, renamed label held]
  split
  · exact .ok rfl
  · exact .error (.unboundLabel ..)

variable [ExtentAlgebra ε]

theorem contract_canonical (table : ShapeTable ε) {c d : Contraction} (renamed : c.canonical = .ok d) :
    Outcome.Alike Error.SameButLabel Eq (table.contract c) (table.contract d) := by
  obtain ⟨operands, kept, output, among⟩ := Contraction.canonical_eq_ok renamed
  rw [contract, contract, operands, kept, output]
  refine (Outcome.Alike.foldlM
    (R := fun a b => a.1 = b.1 ∧ Renamed (canonicalLabel c.labels.eraseDups) c.labels a.2 b.2)
    (Q := fun a b => a ∈ c.operands ∧ b = a.relabel (canonicalLabel c.labels.eraseDups)) ?_ ?_ ?_).bind ?_
  · rintro s t operand _ ⟨tables, names⟩ ⟨member, rfl⟩
    exact bindOperand_renamed (canonicalLabel_eraseDups c.labels)
      (fun label held => List.mem_flatMap_of_mem member held) tables names
  · rw [List.forall₂_map_right_iff, List.forall₂_same]
    exact fun operand member => ⟨member, rfl⟩
  · exact ⟨rfl, fun label held => rfl⟩
  · rintro ⟨after, bound⟩ ⟨_, bound'⟩ ⟨rfl, names⟩
    refine Outcome.Alike.bind (R := List.Forall₂ Eq) (Outcome.Alike.mapM ?_) ?_
    · rw [List.forall₂_map_right_iff, List.forall₂_same]
      exact fun label member => keptExtent_renamed names (among label member)
    · intro shape shape' same
      rw [List.forall₂_eq_eq_eq] at same
      exact .ok (by rw [same])

theorem step_normalized (table : ShapeTable ε) {op op' : Operation} (renamed : op.normalized = .ok op') :
    Outcome.Alike Error.SameButLabel Eq (table.step op) (table.step op') := by
  cases op with
  | contraction c =>
    obtain ⟨d, canonical, rfl⟩ := Outcome.map_eq_ok.mp renamed
    exact contract_canonical table canonical
  | _ =>
    cases renamed
    exact .refl .refl _

theorem infer_normalized {p : Program} {operations : List Operation}
    (renamed : p.operations.mapM Operation.normalized = .ok operations) (given : GivenShapes ε) :
    Outcome.Alike Error.SameButLabel Eq (infer p given) (infer ⟨operations⟩ given) := by
  refine (Outcome.Alike.refl .refl (ofGiven given)).bind ?_
  rintro start _ rfl
  refine Outcome.Alike.foldlM ?_ (Outcome.mapM_eq_ok.mp renamed) rfl
  rintro table _ op op' rfl normal
  exact step_normalized table normal

end ShapeTable

namespace SymbolTable

theorem record_normalized (roles : IntMap Role) {op op' : Operation} (renamed : op.normalized = .ok op') :
    record roles op' = record roles op := by
  cases op with
  | contraction c =>
    obtain ⟨d, canonical, rfl⟩ := Outcome.map_eq_ok.mp renamed
    obtain ⟨-, -, output, -⟩ := Contraction.canonical_eq_ok canonical
    simp only [record, Operation.inputs, Operation.outputs, Contraction.canonical_inputs canonical, output]
  | _ =>
    cases renamed
    rfl

theorem ofProgram_normalized {p : Program} {operations : List Operation}
    (renamed : p.operations.mapM Operation.normalized = .ok operations) :
    ofProgram ⟨operations⟩ = ofProgram p := by
  have runs : p.operations.foldlM record .empty = operations.foldlM record .empty := by
    refine Outcome.Alike.eq (Outcome.Alike.foldlM ?_ (Outcome.mapM_eq_ok.mp renamed) rfl)
    rintro roles _ op op' rfl normal
    rw [record_normalized roles normal]
    exact .refl (fun _ => rfl) _
  rw [ofProgram, ofProgram, runs]

end SymbolTable

/-- A contraction and its canonical form have the same value on all tensors. -/
theorem Contraction.einsum_canonical {c d : Contraction} (renamed : c.canonical = .ok d) {α : Type}
    [CommSemiring α] (tensors : List (Tensor α)) :
    Tensor.einsum (tensors.zip d.subscripts) d.kept = Tensor.einsum (tensors.zip c.subscripts) c.kept := by
  obtain ⟨-, kept, -, among⟩ := canonical_eq_ok renamed
  have operands : tensors.zip d.subscripts =
      Tensor.relabelled (canonicalLabel c.labels.eraseDups) (tensors.zip c.subscripts) := by
    rw [canonical_subscripts renamed, List.zip_map_right]
    rfl
  rw [operands, kept]
  exact Tensor.einsum_relabel (canonicalLabel_eraseDups c.labels)
    (fun operand member label axis => mem_labels (List.of_mem_zip member).2 axis) among

theorem Contraction.einsum_total {c : Contraction} (among : ∀ label ∈ c.kept, label ∈ c.labels) {α : Type}
    [CommSemiring α] {tensors : List (Tensor α)} (count : tensors.length = c.operands.length)
    (consistent : Tensor.Consistent (tensors.zip c.subscripts)) :
    ∃ value, Tensor.einsum (tensors.zip c.subscripts) c.kept = some value := by
  have subscripts : (tensors.zip c.subscripts).map Prod.snd = c.subscripts :=
    List.map_snd_zip (by simp [Contraction.subscripts, count])
  refine consistent.einsum ?_ c.kept_nodup ?_
  · intro none
    rw [none, Contraction.subscripts, List.map_nil, eq_comm, List.map_eq_nil_iff] at subscripts
    exact c.operands_nonempty subscripts
  · rwa [List.flatMap_def, subscripts, ← labels_eq_flatten]

/-- Where every contraction has a canonical form, the program of these forms has the same
tensors in the same roles or is refused for the same cause. It gets the same shapes from
what is given, over any extents, or neither of them gets any, for causes that differ at
most in the label shown. Each contraction has the value of its canonical form, over every
semiring. -/
theorem Program.canonical_indistinguishable (ε : Type) [ExtentAlgebra ε] (p : Program)
    (canonical : ∀ c, .contraction c ∈ p.operations → ∃ d, c.canonical = .ok d) :
    ∃ operations, p.operations.mapM Operation.normalized = .ok operations ∧
      SymbolTable.ofProgram ⟨operations⟩ = SymbolTable.ofProgram p ∧
      (∀ (given : GivenShapes ε) table,
        ShapeTable.infer ⟨operations⟩ given = .ok table ↔ ShapeTable.infer p given = .ok table) ∧
      (∀ (given : GivenShapes ε) e, ShapeTable.infer p given = .error e →
        ∃ e', ShapeTable.infer ⟨operations⟩ given = .error e' ∧ e'.kind = e.kind ∧ e.SameButLabel e') ∧
      ∀ c, .contraction c ∈ p.operations → ∃ d, c.canonical = .ok d ∧ .contraction d ∈ operations ∧
        ∀ (α : Type) [CommSemiring α] (tensors : List (Tensor α)), tensors.length = c.operands.length →
          Tensor.einsum (tensors.zip d.subscripts) d.kept = Tensor.einsum (tensors.zip c.subscripts) c.kept ∧
          (Tensor.Consistent (tensors.zip c.subscripts) →
            ∃ value, Tensor.einsum (tensors.zip c.subscripts) c.kept = some value) := by
  obtain ⟨operations, renamed⟩ : ∃ operations, p.operations.mapM Operation.normalized = .ok operations := by
    refine Outcome.mapM_total fun op member => ?_
    cases op with
    | contraction c =>
      obtain ⟨d, done⟩ := canonical c member
      exact ⟨_, Outcome.map_eq_ok.mpr ⟨d, done, rfl⟩⟩
    | _ => exact ⟨_, rfl⟩
  refine ⟨operations, renamed, SymbolTable.ofProgram_normalized renamed,
    fun given table => (ShapeTable.infer_normalized renamed given).ok_iff, fun given e refused => ?_,
    fun c member => ?_⟩
  · obtain ⟨e', failed, same⟩ := (ShapeTable.infer_normalized renamed given).exists_error refused
    exact ⟨e', failed, same.kind, same⟩
  · obtain ⟨op, listed, normal⟩ := Outcome.exists_of_forall₂ (Outcome.mapM_eq_ok.mp renamed) member
    obtain ⟨d, done, rfl⟩ := Outcome.map_eq_ok.mp normal
    obtain ⟨-, -, -, among⟩ := Contraction.canonical_eq_ok done
    exact ⟨d, done, listed, fun α _ tensors count =>
      ⟨Contraction.einsum_canonical done tensors, Contraction.einsum_total among count⟩⟩

/-- A product of two matrices that is transposed on the way. -/
theorem Program.canonical_indistinguishable_product :
    let c : Contraction := ⟨[⟨0, [7, -1]⟩, ⟨1, [-1, 4]⟩], [4, 7], 2, by decide, by decide, by decide⟩
    let d : Contraction := ⟨[⟨0, [0, 1]⟩, ⟨1, [1, 2]⟩], [2, 0], 2, by decide, by decide, by decide⟩
    let x : Tensor Int := ⟨[2, 2], [1, 2, 3, 4], rfl⟩
    c.canonical = .ok d ∧
    (∀ (given : GivenShapes Extent) table,
      ShapeTable.infer ⟨[.contraction d]⟩ given = .ok table ↔ ShapeTable.infer ⟨[.contraction c]⟩ given = .ok table) ∧
    ∃ value, Tensor.einsum [(x, [7, -1]), (x, [-1, 4])] [4, 7] = some value ∧
      Tensor.einsum [(x, [0, 1]), (x, [1, 2])] [2, 0] = some value := by
  intro c d x
  have only : ∀ c', Operation.contraction c' ∈ [Operation.contraction c] → c' = c := by simp
  obtain ⟨operations, renamed, -, shapes, -, values⟩ :=
    canonical_indistinguishable Extent ⟨[.contraction c]⟩ fun c' member => only c' member ▸ ⟨d, rfl⟩
  cases renamed
  obtain ⟨d', done, -, each⟩ := values c List.mem_cons_self
  cases done
  obtain ⟨same, total⟩ := each Int [x, x] rfl
  obtain ⟨value, found⟩ := total (by decide)
  exact ⟨rfl, shapes, value, found, same.trans found⟩

end TensorNetwork
