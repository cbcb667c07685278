import TensorNetwork.Proofs.Codegen.Layout

/-! What the text of generated code tells of the program. Read from the left, every line
shows which operation it belongs to and all that the operation consists of; only the axes
on the right of a split are read from the array once they are several, and so their number
is not shown. A split may be followed by lines that restore its factors, which no other
line can be taken for. -/
namespace TensorNetwork
open Text (Stops isNumeric int_delimited int_separated intTuple_delimited)
open Text.LineEnds (inline_append inline_commaSeparated inline_delimited inline_int inline_of_printed)

/-- Equal operations, and splits that differ in nothing but the number of axes on the
right, which are several in both. -/
inductive Operation.Indistinct : Operation → Operation → Prop
  | same (op : Operation) : Indistinct op op
  | splits {s t : Split} (input : s.input = t.input) (left : s.left = t.left) (q : s.q = t.q) (r : s.r = t.r)
      (several : 2 ≤ s.rank - s.left) (several' : 2 ≤ t.rank - t.left) : Indistinct (.split s) (.split t)

namespace Codegen
open Source

theorem operandListing_delimited {operands operands' : List Operand} {kept kept' : List Label} {u v : String}
    (same : operandListing operands kept ++ u = operandListing operands' kept' ++ v) :
    operands = operands' ∧ kept = kept' ∧ u = v := by
  -- A tensor and a list of labels begin differently.
  have apart : ∀ tensor : TensorId, ∀ labels : List Label, ∀ w w',
      tensorName tensor ++ w ≠ Text.intTuple labels ++ w' := by
    intro tensor labels w w' equal
    have first := Text.head_tuple (labels.map toString) w'
    rw [← Text.intTuple, ← equal] at first
    simp [tensorName] at first
  induction operands generalizing operands' with
  | nil =>
    cases operands' with
    | nil =>
      obtain ⟨rfl, rest⟩ := intTuple_delimited same
      exact ⟨rfl, rfl, rest⟩
    | cons operand rest =>
      simp only [operandListing, String.append_assoc] at same
      exact absurd same.symm (apart _ _ _ _)
  | cons operand rest ih =>
    cases operands' with
    | nil =>
      simp only [operandListing, String.append_assoc] at same
      exact absurd same (apart _ _ _ _)
    | cons operand' rest' =>
      simp only [operandListing, tensorName, String.append_assoc, String.append_right_inj] at same
      obtain ⟨tensor, after⟩ := int_separated (by decide) same
      obtain ⟨labels, after⟩ := intTuple_delimited after
      obtain ⟨rfl, rfl, rfl⟩ := ih ((String.append_right_inj _).mp after)
      obtain rfl := Operand.ext tensor labels
      exact ⟨rfl, rfl, rfl⟩

theorem stops_reshaping (s : Split) (text : String) : Stops (reshaping s ++ (", mode=\"reduced\")\n" ++ text)) := by
  unfold reshaping
  split <;> simp [Stops, isNumeric]

/-- A matrix has one axis on the left; any other tensor shows how many it has. -/
theorem reshaping_delimited {s t : Split} {u v : String} (input : s.input = t.input)
    (same : reshaping s ++ (", mode=\"reduced\")\n" ++ u) = reshaping t ++ (", mode=\"reduced\")\n" ++ v)) :
    s.left = t.left ∧ u = v := by
  unfold reshaping at same
  split at same <;> split at same
  · rename_i matrix matrix'
    have left : s.left = t.left := by
      have := s.left_pos
      have := s.left_lt
      have := t.left_pos
      have := t.left_lt
      omega
    exact ⟨left, (String.append_right_inj _).mp ((String.append_right_inj _).mp same)⟩
  · simp [← String.toList_inj] at same
  · simp [← String.toList_inj] at same
  · simp only [input, String.join_cons, String.append_assoc, String.append_right_inj] at same
    obtain ⟨left, after⟩ := int_separated (by decide) same
    simp only [left, String.append_right_inj] at after
    exact ⟨Int.ofNat.inj left, after⟩

theorem leftAxes_congr {s t : Split} (input : s.input = t.input) (left : s.left = t.left) :
    leftAxes s = leftAxes t := by
  rw [leftAxes, leftAxes, input, left]

theorem rightAxes_congr {s t : Split} (input : s.input = t.input) (left : s.left = t.left) :
    rightAxes s = rightAxes t := by
  rw [rightAxes, rightAxes, input, left]

/-- A text that does not begin with a line that restores a tensor. -/
def Resumes (text : String) : Prop :=
  ∀ tensor axes rest, text ≠ restoration tensor axes ++ rest

theorem stops_continuation {op : Operation} {part : List Statement} (generated : statements none op = .ok part)
    (text : String) : Stops (continuation op ++ text) := by
  cases op with
  | foreign f => cases generated
  | _ => simp [continuation, Stops, isNumeric]

theorem resumes_layout {op : Operation} {part : List Statement} (generated : statements none op = .ok part)
    (text : String) : Resumes (layout part ++ text) := by
  intro tensor axes rest same
  obtain ⟨first, -, written⟩ := layout_statements generated
  simp only [written, restoration, String.join_cons, String.append_assoc, String.append_right_inj] at same
  obtain ⟨-, after⟩ := int_delimited (stops_continuation generated _) (by simp [Stops, isNumeric]) same
  cases op with
  | foreign f => cases generated
  | _ => simp [continuation, ← String.toList_inj] at after

theorem resumes_result (value : Expr) : Resumes (layout [.result value]) := by
  intro tensor axes rest same
  simp [layout, Statement.render, restoration, indentation, ← String.toList_inj] at same

theorem contraction_delimited {c d : Contraction} {u v : String} (output : c.output = d.output)
    (same : continuation (.contraction c) ++ u = continuation (.contraction d) ++ v) : c = d ∧ u = v := by
  simp only [continuation, String.join_cons, String.append_assoc, String.append_right_inj] at same
  obtain ⟨operands, kept, after⟩ := operandListing_delimited same
  exact ⟨Contraction.ext operands kept output, (String.append_right_inj _).mp after⟩

theorem transposition_delimited {t t' : Transposition} {u v : String} (output : t.output = t'.output)
    (same : continuation (.transposition t) ++ u = continuation (.transposition t') ++ v) : t = t' ∧ u = v := by
  simp only [continuation, tensorName, String.join_cons, String.append_assoc, String.append_right_inj] at same
  obtain ⟨input, after⟩ := int_separated (by decide) same
  obtain ⟨permutation, ending⟩ := intTuple_delimited after
  exact ⟨Transposition.ext input permutation output, (String.append_right_inj _).mp ending⟩

theorem split_delimited {s t : Split} {u v : String} (q : s.q = t.q) (resumes : Resumes u) (resumes' : Resumes v)
    (same : continuation (.split s) ++ u = continuation (.split t) ++ v) :
    (Operation.split s).Indistinct (.split t) ∧ u = v := by
  simp only [continuation, tensorName, String.join_cons, String.append_assoc, String.append_right_inj] at same
  obtain ⟨r, call⟩ := int_separated (by decide) same
  rw [String.append_right_inj] at call
  obtain ⟨input, matrix⟩ := int_delimited (stops_reshaping s _) (stops_reshaping t _) call
  obtain ⟨left, factors⟩ := reshaping_delimited input matrix
  rw [leftAxes_congr input left, rightAxes_congr input left, q, r, left, String.append_right_inj] at factors
  -- What follows a split cannot be taken for its last line, so both have this line or none has.
  split at factors <;> split at factors <;> rename_i here there
  · exact ⟨.splits input left q r here there, (String.append_right_inj _).mp factors⟩
  · exact absurd (String.empty_append ▸ factors.symm) (resumes' _ _ _)
  · exact absurd (String.empty_append ▸ factors) (resumes _ _ _)
  · have rank : s.rank = t.rank := by
      have := s.left_lt
      have := t.left_lt
      unfold Split.right at here there
      omega
    obtain rfl := Split.ext input rank left q r
    exact ⟨.same _, (String.append_right_inj _).mp factors⟩

/-- Code that begins alike is made for operations that are alike, and goes on alike. -/
theorem layout_statements_delimited {a b : Operation} {first second : List Statement} {u v : String}
    (here : statements none a = .ok first) (there : statements none b = .ok second) (resumes : Resumes u)
    (resumes' : Resumes v) (same : layout first ++ u = layout second ++ v) : a.Indistinct b ∧ u = v := by
  obtain ⟨tensor, output, text⟩ := layout_statements here
  obtain ⟨tensor', output', text'⟩ := layout_statements there
  simp only [text, text', String.append_assoc, String.append_right_inj] at same
  obtain ⟨rfl, after⟩ := int_delimited (stops_continuation here _) (stops_continuation there _) same
  have outputs := output.trans output'.symm
  cases a with
  | contraction c =>
    cases b with
    | contraction d =>
      obtain ⟨rfl, rest⟩ := contraction_delimited (Option.some.inj outputs) after
      exact ⟨.same _, rest⟩
    | transposition t => simp [continuation, ← String.toList_inj] at after
    | split t => simp [continuation, ← String.toList_inj] at after
    | foreign f => cases there
  | transposition t =>
    cases b with
    | contraction d => simp [continuation, ← String.toList_inj] at after
    | transposition t' =>
      obtain ⟨rfl, rest⟩ := transposition_delimited (Option.some.inj outputs) after
      exact ⟨.same _, rest⟩
    | split t' => simp [continuation, ← String.toList_inj] at after
    | foreign f => cases there
  | split s =>
    cases b with
    | contraction d => simp [continuation, ← String.toList_inj] at after
    | transposition t => simp [continuation, ← String.toList_inj] at after
    | split t => exact split_delimited (Option.some.inj outputs) resumes resumes' after
    | foreign f => cases there
  | foreign f => cases here

theorem layout_ne_result {op : Operation} {part : List Statement} (generated : statements none op = .ok part)
    (text : String) (value : Expr) : layout part ++ text ≠ layout [.result value] := by
  obtain ⟨tensor, -, written⟩ := layout_statements generated
  rw [written]
  simp [layout, Statement.render, indentation, ← String.toList_inj]

/-- The parts of a body are made for the operations one by one. -/
abbrev Generates : List Operation → List (List Statement) → Prop :=
  List.Forall₂ fun op part => statements none op = .ok part

theorem layout_cons (part : List Statement) (parts : List (List Statement)) (last : Statement) :
    layout ((part :: parts).flatten ++ [last]) = layout part ++ layout (parts.flatten ++ [last]) := by
  rw [List.flatten_cons, List.append_assoc, layout_append]

theorem resumes_body {ops : List Operation} {parts : List (List Statement)} (generated : Generates ops parts)
    (value : Expr) : Resumes (layout (parts.flatten ++ [.result value])) := by
  cases generated with
  | nil => exact resumes_result value
  | cons here later =>
    rw [layout_cons]
    exact resumes_layout here _

/-- Bodies with the same lines are made for operations that are alike. -/
theorem indistinct_of_layout {ops ops' : List Operation} {parts parts' : List (List Statement)} {value value' : Expr}
    (generated : Generates ops parts) (generated' : Generates ops' parts')
    (same : layout (parts.flatten ++ [.result value]) = layout (parts'.flatten ++ [.result value'])) :
    List.Forall₂ Operation.Indistinct ops ops' := by
  induction generated generalizing ops' parts' with
  | nil =>
    cases generated' with
    | nil => exact .nil
    | cons here' later' =>
      rw [layout_cons] at same
      exact absurd same.symm (layout_ne_result here' _ _)
  | cons here later ih =>
    cases generated' with
    | nil =>
      rw [layout_cons] at same
      exact absurd same (layout_ne_result here _ _)
    | cons here' later' =>
      rw [layout_cons, layout_cons] at same
      obtain ⟨alike, rest⟩ :=
        layout_statements_delimited here here' (resumes_body later value) (resumes_body later' value') same
      exact .cons alike (ih later' rest)

theorem resultStatement_eq (tensors : List TensorId) : ∃ value, resultStatement tensors = .result value := by
  unfold resultStatement
  split <;> exact ⟨_, rfl⟩

theorem inline_parameters (tensors : List TensorId) :
    sourceLines.Inline (Text.commaSeparated (tensors.map tensorName) ++ "):") := by
  apply inline_append.mpr
  constructor
  · apply inline_commaSeparated.mpr
    intro name member
    obtain ⟨tensor, -, rfl⟩ := List.mem_map.mp member
    exact inline_append.mpr ⟨inline_of_printed (by decide), inline_int tensor⟩
  · exact inline_of_printed (by decide)

/-- The rank of a split is not shown if it has several axes on the right. -/
theorem statements_indistinct {a b : Operation} (alike : a.Indistinct b) : statements none a = statements none b := by
  cases alike with
  | same op => rfl
  | @splits s t input left q r several several' =>
    have pos := s.left_pos
    have tensor : s.rank ≠ 2 := by omega
    have tensor' : t.rank ≠ 2 := by omega
    have first := leftAxes_congr input left
    have second := rightAxes_congr input left
    have call : splitCall s = splitCall t := by
      rw [splitCall, splitCall, splitMatrix, splitMatrix, if_neg tensor, if_neg tensor', first, second, input]
    have restoredLeft : restoreLeft none s = restoreLeft none t := by
      rw [restoreLeft, restoreLeft, first, left, q]
    have restoredRight : restoreRight none s = restoreRight none t := by
      have wide : 1 < s.right := several
      have wide' : 1 < t.right := several'
      rw [restoreRight, restoreRight, second, r, if_pos wide, if_pos wide']
    simp only [statements, splitStatements, factorComment, q, r, call, restoredLeft, restoredRight]

theorem record_indistinct {a b : Operation} (alike : a.Indistinct b) (roles : IntMap Role) :
    SymbolTable.record roles a = SymbolTable.record roles b := by
  cases alike with
  | same op => rfl
  | splits input left q r several several' =>
    simp only [SymbolTable.record, Operation.outputs, Operation.inputs, input, q, r]

theorem recorded_indistinct {ops ops' : List Operation} (alike : List.Forall₂ Operation.Indistinct ops ops')
    (roles : IntMap Role) : ops.foldlM SymbolTable.record roles = ops'.foldlM SymbolTable.record roles := by
  induction alike generalizing roles with
  | nil => rfl
  | cons head _ ih => simp only [List.foldlM_cons, record_indistinct head, ih]

theorem generated_indistinct {ops ops' : List Operation} (alike : List.Forall₂ Operation.Indistinct ops ops') :
    ops.mapM (statements none) = ops'.mapM (statements none) := by
  induction alike with
  | nil => rfl
  | cons head _ ih => rw [List.mapM_cons, List.mapM_cons, statements_indistinct head, ih]

theorem compile_indistinct {p p' : Program} (alike : List.Forall₂ Operation.Indistinct p.operations p'.operations)
    (name : String) : compile name p none = compile name p' none := by
  rw [compile, compile, SymbolTable.ofProgram, SymbolTable.ofProgram, recorded_indistinct alike]
  simp only [compileWith, moduleOf, functionBody, inferred, bind, Except.bind, generated_indistinct alike]

/-- Generated code tells which program it was made for, but for the number of axes on the
right of a split where they are several. -/
theorem text_determines_program {p p' : Program} {roles roles' : SymbolTable}
    (accepted : SymbolTable.ofProgram p = .ok roles) (accepted' : SymbolTable.ofProgram p' = .ok roles')
    (name : String) :
    ∃ source source', compile name p none = .ok source ∧ compile name p' none = .ok source' ∧
      (fileText source = fileText source' ↔ List.Forall₂ Operation.Indistinct p.operations p'.operations) := by
  obtain ⟨parts, generated, compiled⟩ := compile_plain accepted name
  obtain ⟨parts', generated', compiled'⟩ := compile_plain accepted' name
  refine ⟨_, _, compiled, compiled', ?_, ?_⟩
  · intro same
    rw [fileText_scaffold _ _ (by simp), fileText_scaffold _ _ (by simp)] at same
    simp only [String.append_right_inj] at same
    obtain ⟨-, lines⟩ := inline_delimited (inline_parameters _) (inline_parameters _) same
    obtain ⟨value, last⟩ := resultStatement_eq roles.outputs
    obtain ⟨value', last'⟩ := resultStatement_eq roles'.outputs
    rw [last, last'] at lines
    exact indistinct_of_layout (Outcome.mapM_eq_ok.mp generated) (Outcome.mapM_eq_ok.mp generated') lines
  · intro alike
    rw [compile_indistinct alike, compiled'] at compiled
    rw [Except.ok.inj compiled]

/-- A matrix is factored as it is, while arrays with more axes are not told apart. -/
theorem text_determines_program_ranks :
    ∃ matrix array array', Split.make (-1) 2 1 0 (-2) = .ok matrix ∧ Split.make (-1) 3 1 0 (-2) = .ok array ∧
      Split.make (-1) 4 1 0 (-2) = .ok array' ∧
      ∃ source source' source'', compile "f" ⟨[.split matrix]⟩ none = .ok source ∧
        compile "f" ⟨[.split array]⟩ none = .ok source' ∧ compile "f" ⟨[.split array']⟩ none = .ok source'' ∧
        fileText source ≠ fileText source' ∧ fileText source' = fileText source'' := by
  obtain ⟨matrix, made⟩ : ∃ s, Split.make (-1) 2 1 0 (-2) = .ok s := ⟨_, rfl⟩
  obtain ⟨array, made'⟩ : ∃ s, Split.make (-1) 3 1 0 (-2) = .ok s := ⟨_, rfl⟩
  obtain ⟨array', made''⟩ : ∃ s, Split.make (-1) 4 1 0 (-2) = .ok s := ⟨_, rfl⟩
  refine ⟨matrix, array, array', made, made', made'', ?_⟩
  have accepted : ∀ s : Split, s.input = -1 → s.q = 0 → s.r = -2 →
      ∃ roles, SymbolTable.ofProgram ⟨[.split s]⟩ = .ok roles := by
    rintro ⟨_, _, _, _, _, _, _⟩ rfl rfl rfl
    exact ⟨_, rfl⟩
  obtain ⟨input, rank, left, q, r⟩ := Split.make_eq_ok made
  obtain ⟨input', rank', left', q', r'⟩ := Split.make_eq_ok made'
  obtain ⟨input'', rank'', left'', q'', r''⟩ := Split.make_eq_ok made''
  obtain ⟨roles, here⟩ := accepted matrix input q r
  obtain ⟨roles', here'⟩ := accepted array input' q' r'
  obtain ⟨roles'', here''⟩ := accepted array' input'' q'' r''
  obtain ⟨source, source', compiled, compiled', apart⟩ := text_determines_program here here' "f"
  obtain ⟨other, source'', again, compiled'', alike⟩ := text_determines_program here' here'' "f"
  cases compiled'.symm.trans again
  refine ⟨source, source', source'', compiled, compiled', compiled'', ?_, ?_⟩
  · intro same
    cases apart.mp same with
    | cons head _ =>
      cases head with
      | same => omega
      | splits _ _ _ _ several _ => omega
  · apply alike.mpr
    refine .cons (.splits ?_ ?_ ?_ ?_ ?_ ?_) .nil
    · rw [input', input'']
    · rw [left', left'']
    · rw [q', q'']
    · rw [r', r'']
    · omega
    · omega

end Codegen
end TensorNetwork
