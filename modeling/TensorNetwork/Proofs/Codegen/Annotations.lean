import TensorNetwork.Proofs.Codegen.Footprint
import TensorNetwork.Proofs.Codegen.Meaning
import TensorNetwork.Proofs.Shape.Hereditary
import TensorNetwork.Proofs.Source.Comments

/-! What shapes add to generated code. The statements are those generated without shapes,
up to their comments. Comments show extents as they are written, so the texts have the
same lines as long as no given symbol holds a line end; a symbol that holds one puts what
follows it on a line of its own, outside of the comment. -/
namespace TensorNetwork.Codegen
open Source Text Text.LineEnds

variable {shapes : Option (ShapeTable Extent)}

theorem assign_uncommented {tensor : TensorId} {value : Expr} {statement : Statement}
    (made : assign shapes tensor value = .ok statement) :
    assign none tensor value = .ok statement.uncommented := by
  obtain ⟨comment, rfl⟩ := assign_eq_ok made
  rfl

theorem single_uncommented {tensor : TensorId} {value : Expr} {part : List Statement}
    (made : (assign shapes tensor value).map ([·]) = .ok part) :
    (assign none tensor value).map ([·]) = .ok (part.map Statement.uncommented) := by
  obtain ⟨statement, assigned, rfl⟩ := Outcome.map_eq_ok.mp made
  rw [assign_uncommented assigned]
  rfl

/-- An assignment that may be missing is missing without shapes as well. -/
theorem optional_uncommented {tensor : TensorId} {value : Expr} {needed : Prop} [Decidable needed]
    {part : List Statement}
    (made : (if needed then (assign shapes tensor value).map ([·]) else .ok []) = .ok part) :
    (if needed then (assign none tensor value).map ([·]) else .ok []) = .ok (part.map Statement.uncommented) := by
  split at made
  · rename_i here
    rw [if_pos here]
    exact single_uncommented made
  · rename_i missing
    cases made
    rw [if_neg missing, List.map_nil]

/-- Without shapes an operation gets the same statements without their comments. -/
theorem statements_uncommented {op : Operation} {part : List Statement}
    (generated : statements shapes op = .ok part) :
    statements none op = .ok (part.map Statement.uncommented) := by
  cases op with
  | contraction c => exact single_uncommented generated
  | transposition t => exact single_uncommented generated
  | split s =>
    obtain ⟨comment, -, generated⟩ := Outcome.bind_eq_ok.mp generated
    obtain ⟨left, ofLeft, generated⟩ := Outcome.bind_eq_ok.mp generated
    obtain ⟨right, ofRight, done⟩ := Outcome.bind_eq_ok.mp generated
    cases done
    have plainLeft : restoreLeft none s = .ok (left.map Statement.uncommented) := optional_uncommented ofLeft
    have plainRight : restoreRight none s = .ok (right.map Statement.uncommented) := optional_uncommented ofRight
    rw [statements, splitStatements, factorComment, plainLeft, plainRight, List.map_cons, List.map_append]
    rfl
  | foreign f => cases generated

theorem uncommented_resultStatement (tensors : List TensorId) :
    (resultStatement tensors).uncommented = resultStatement tensors := by
  unfold resultStatement
  split <;> rfl

theorem uncommented_scaffold (name : String) (parameters : List String) (body : List Statement) :
    (scaffold name parameters body).uncommented = scaffold name parameters (body.map Statement.uncommented) := by
  simp only [scaffold, Statement.uncommented, uncommentedAll, uncommentedAll_eq_map body]

theorem comments_scaffold (name : String) (parameters : List String) (body : List Statement) :
    (scaffold name parameters body).comments = body.flatMap Statement.comments := by
  simp only [scaffold, Statement.comments, commentsOf, commentsOf_eq_flatMap body, List.nil_append, List.append_nil]

/-- Code that can be generated with shapes can be generated without, and is the same
without its comments. -/
theorem compile_uncommented {name : String} {p : Program} {given : Option (GivenShapes Extent)} {source : Statement}
    (compiled : compile name p given = .ok source) : compile name p none = .ok source.uncommented := by
  obtain ⟨roles, shapes, parts, accepted, -, generated, rfl⟩ := compile_eq_ok.mp compiled
  have plain : p.operations.mapM (statements none) = .ok (parts.map (List.map Statement.uncommented)) := by
    rw [Outcome.mapM_eq_ok, List.forall₂_map_right_iff]
    exact (Outcome.mapM_eq_ok.mp generated).imp fun _ _ => statements_uncommented
  rw [compile_parts accepted rfl plain, uncommented_scaffold, List.map_append, List.map_flatten, List.map_singleton,
    uncommented_resultStatement]

variable {ends : LineEnds} {table : ShapeTable Extent}

theorem inline_shape {shape : Shape Extent} (each : ∀ a ∈ shape, ends.Inline a.text) : ends.Inline shape.text :=
  inline_tuple (List.forall_mem_map.mpr each)

theorem inline_single {tensor : TensorId} {value : Expr} {part : List Statement}
    (every : table.Every fun a => ends.Inline a.text)
    (made : (assign (some table) tensor value).map ([·]) = .ok part) :
    ∀ statement ∈ part, ∀ comment ∈ statement.comments, ends.Inline comment := by
  obtain ⟨statement, assigned, rfl⟩ := Outcome.map_eq_ok.mp made
  obtain ⟨comment, commented, rfl⟩ := Outcome.map_eq_ok.mp assigned
  obtain ⟨shape, known, rfl⟩ := Outcome.map_eq_ok.mp commented
  have heading : ends.Inline "shape: " := inline_of_printed (by decide)
  simpa [Statement.comments] using inline_append.mpr ⟨heading, inline_shape (every.known known)⟩

theorem inline_optional {tensor : TensorId} {value : Expr} {needed : Prop} [Decidable needed] {part : List Statement}
    (every : table.Every fun a => ends.Inline a.text)
    (made : (if needed then (assign (some table) tensor value).map ([·]) else .ok []) = .ok part) :
    ∀ statement ∈ part, ∀ comment ∈ statement.comments, ends.Inline comment := by
  split at made
  · exact inline_single every made
  · cases made
    exact fun _ member => (List.not_mem_nil member).elim

theorem inline_factorComment {s : Split} {comment : Option String}
    (every : table.Every fun a => ends.Inline a.text) (made : factorComment (some table) s = .ok comment) :
    ∀ text ∈ comment.toList, ends.Inline text := by
  obtain ⟨⟨rows, columns⟩, matrix, made⟩ := Outcome.bind_eq_ok.mp made
  obtain ⟨shape, input, sides⟩ := Outcome.map_eq_ok.mp matrix
  obtain ⟨q, ofQ, made⟩ := Outcome.bind_eq_ok.mp made
  split at made
  · cases made
  · rename_i bond last
    cases made
    obtain ⟨inRows, inColumns⟩ := (ShapeTable.hereditary_inline ends).sides s.left (every.known input)
    rw [sides] at inRows inColumns
    have inBond : ends.Inline bond.text := every.known ofQ bond (List.mem_of_getLast? last)
    have heading : ends.Inline "shapes: " := inline_of_printed (by decide)
    have comma : ends.Inline ", " := inline_of_printed (by decide)
    have first : ends.Inline (Shape.text [rows, bond]) := inline_shape (by simpa using ⟨inRows, inBond⟩)
    have second : ends.Inline (Shape.text [bond, columns]) := inline_shape (by simpa using ⟨inBond, inColumns⟩)
    simpa [inline_append] using ⟨⟨⟨heading, first⟩, comma⟩, second⟩

/-- Comments stay on their lines if all extents that they may show do. -/
theorem inline_statements {op : Operation} {part : List Statement}
    (every : table.Every fun a => ends.Inline a.text) (generated : statements (some table) op = .ok part) :
    ∀ statement ∈ part, ∀ comment ∈ statement.comments, ends.Inline comment := by
  cases op with
  | contraction c => exact inline_single every generated
  | transposition t => exact inline_single every generated
  | split s =>
    obtain ⟨comment, commented, generated⟩ := Outcome.bind_eq_ok.mp generated
    obtain ⟨left, ofLeft, generated⟩ := Outcome.bind_eq_ok.mp generated
    obtain ⟨right, ofRight, done⟩ := Outcome.bind_eq_ok.mp generated
    cases done
    refine List.forall_mem_cons.mpr ⟨inline_factorComment every commented, ?_⟩
    exact List.forall_mem_append.mpr ⟨inline_optional every ofLeft, inline_optional every ofRight⟩
  | foreign f => cases generated

theorem inline_comments {name : String} {p : Program} {given : GivenShapes Extent} {source : Statement}
    (supplied : ∀ entry ∈ given, ∀ extent ∈ entry.2, ∀ a, extent.toExtent = .ok a → ends.Inline a.text)
    (compiled : compile name p (some given) = .ok source) : ∀ comment ∈ source.comments, ends.Inline comment := by
  obtain ⟨roles, shapes, parts, -, worked, generated, rfl⟩ := compile_eq_ok.mp compiled
  obtain ⟨table, inferred, rfl⟩ := Outcome.map_eq_ok.mp worked
  have every := (ShapeTable.hereditary_inline ends).infer supplied inferred
  intro comment member
  rw [comments_scaffold] at member
  obtain ⟨statement, listed, inside⟩ := List.mem_flatMap.mp member
  rcases List.mem_append.mp listed with among | last
  · obtain ⟨part, held, here⟩ := List.mem_flatten.mp among
    obtain ⟨op, -, made⟩ := Outcome.mem_of_mapM generated held
    exact inline_statements every made statement here comment inside
  · rw [List.mem_singleton.mp last] at inside
    unfold resultStatement at inside
    split at inside <;> cases inside

theorem annotates_fileText_iff (source : Statement) :
    ends.Annotates (fileText source.uncommented) (fileText source) ↔
      ∀ comment ∈ source.comments, ends.Inline comment :=
  annotates_feed_iff.trans (annotates_render_iff 0 source)

/-- Shapes change nothing in generated code but its comments. In the text these stand at
the ends of the lines that the code has without them, exactly if they hold no line ends;
so they do if no given extent is written with one. -/
theorem compile_shapes_only_add_comments (ends : LineEnds) {name : String} {p : Program} {given : GivenShapes Extent}
    {annotated : Statement} (compiled : compile name p (some given) = .ok annotated) :
    ∃ plain, compile name p none = .ok plain ∧ annotated.uncommented = plain ∧
      (ends.Annotates (fileText plain) (fileText annotated) ↔
        ∀ comment ∈ annotated.comments, ends.Inline comment) ∧
      ((∀ entry ∈ given, ∀ extent ∈ entry.2, ∀ a, extent.toExtent = .ok a → ends.Inline a.text) →
        ends.Annotates (fileText plain) (fileText annotated)) :=
  ⟨annotated.uncommented, compile_uncommented compiled, rfl, annotates_fileText_iff annotated,
    fun supplied => (annotates_fileText_iff annotated).mpr (inline_comments supplied compiled)⟩

/-- Lines of source code end at line feeds and carriage returns. -/
def sourceLines : LineEnds where
  isEnd c := c == '\n' || c == '\r'
  feed := rfl
  hidden := by
    intro c ending
    simp only [Bool.or_eq_true, beq_iff_eq] at ending
    rcases ending with rfl | rfl <;> exact .inl (by decide)

/-- A symbol that looks like a comment itself does no harm. -/
theorem compile_shapes_only_add_comments_turnAndSplit :
    let given : GivenShapes Extent :=
      [(0, [.datum (.text "n"), .datum (.int 2), .datum (.text "  # é"), .datum (.int 5)])]
    ∃ plain annotated, compile "f" turnAndSplit none = .ok plain ∧
      compile "f" turnAndSplit (some given) = .ok annotated ∧
      (∀ entry ∈ given, ∀ extent ∈ entry.2, ∀ a, extent.toExtent = .ok a → sourceLines.Inline a.text) ∧
      sourceLines.Annotates (fileText plain) (fileText annotated) := by
  intro given
  have inline : ∀ entry ∈ given, ∀ extent ∈ entry.2, ∀ a, extent.toExtent = .ok a → sourceLines.Inline a.text := by
    simp only [given, List.forall_mem_singleton, List.forall_mem_cons]
    refine ⟨?_, ?_, ?_, ?_⟩ <;> intro a same <;> cases same
    · exact Extent.inline_symbol.mpr (inline_iff.mpr (by decide))
    · exact Extent.inline_ofInt 2
    · exact Extent.inline_symbol.mpr (inline_iff.mpr (by decide))
    · exact Extent.inline_ofInt 5
  obtain ⟨annotated, compiled⟩ : ∃ annotated, compile "f" turnAndSplit (some given) = .ok annotated := ⟨_, rfl⟩
  obtain ⟨plain, without, -, -, annotates⟩ := compile_shapes_only_add_comments sourceLines compiled
  exact ⟨plain, annotated, without, compiled, inline, annotates inline⟩

/-- A tensor of rank three with its last axis moved to the front. -/
def lastAxisFirst : Program := ⟨[.transposition ⟨0, [2, 0, 1], 1, by decide⟩]⟩

/-- A symbol with a line feed: what follows it becomes a line of code, here a second
assignment that undoes the transposition. -/
theorem symbol_becomes_code :
    let symbol := "m\n    T1 = T0  # "
    ∃ plain annotated, compile "f" lastAxisFirst none = .ok plain ∧
      compile "f" lastAxisFirst (some [(0, [.datum (.text "n"), .datum (.text "k"), .datum (.text symbol)])]) =
        .ok annotated ∧
      "    T1 = T0  # , n, k)" ∈ sourceLines.lines (fileText annotated) ∧
      ¬ sourceLines.Annotates (fileText plain) (fileText annotated) := by
  intro symbol
  refine ⟨_, _, rfl, rfl, by decide +kernel, fun annotates => ?_⟩
  have same := annotates.endCount_eq
  revert same
  decide +kernel

end TensorNetwork.Codegen
