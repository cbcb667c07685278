import TensorNetwork.Proofs.Codegen.Annotations
import TensorNetwork.Proofs.Text.Listing

/-! The text of generated code where no shapes are asked for. A file is its header, the
name of the function with the parameters, and the lines of the body one after the other;
each operation adds lines that show its tensors, labels and axes as they are. -/
namespace TensorNetwork.Codegen
open Source

/-- The lines of a body, each with its line feed. -/
def layout : List Statement → String
  | [] => ""
  | statement :: rest => statement.render 1 ++ "\n" ++ layout rest

theorem layout_append (front back : List Statement) : layout (front ++ back) = layout front ++ layout back := by
  induction front with
  | nil => exact String.empty_append.symm
  | cons statement rest ih => simp only [List.cons_append, layout, ih, String.append_assoc]

theorem intercalate_layout {body : List Statement} (nonempty : body ≠ []) :
    "\n".intercalate (renderStatements 1 body) ++ "\n" = layout body := by
  induction body with
  | nil => exact absurd rfl nonempty
  | cons statement rest ih =>
    cases rest with
    | nil => rw [renderStatements, renderStatements, String.intercalate_singleton, layout, layout, String.append_empty]
    | cons next others =>
      rw [renderStatements, renderStatements, String.intercalate_cons_cons, String.append_assoc, layout,
        ← ih (List.cons_ne_nil next others), renderStatements]

theorem fileText_scaffold (name : String) (parameters : List String) {body : List Statement} (nonempty : body ≠ []) :
    fileText (scaffold name parameters body) =
      "import numpy as np\n\n\ndef " ++ (name ++ ("(" ++ (Text.commaSeparated parameters ++ "):" ++
        ("\n" ++ layout body)))) := by
  have header : "import numpy as np\n\n\ndef " = "import numpy as np" ++ "\n" ++ "\n" ++ "\n" ++ "def " := by decide
  rw [fileText, scaffold, header, ← intercalate_layout nonempty]
  simp only [Statement.render, renderStatements, String.intercalate_cons_cons, String.intercalate_singleton,
    String.append_assoc]
  rfl

theorem renderItems_ints (values : List Int) : renderItems (values.map .int) = values.map toString := by
  induction values with
  | nil => rfl
  | cons value rest ih => rw [List.map_cons, renderItems, Expr.render, ih, List.map_cons]

theorem render_intTuple (values : List Int) : (intTuple values).render = Text.intTuple values := by
  rw [intTuple, Expr.render, renderItems_ints, Text.intTuple]

theorem render_assign (target : Target) (value : Expr) :
    (Statement.assign target value none).render 1 = "    " ++ (target.render ++ (" = " ++ value.render)) := by
  rw [Statement.render, commentText, String.append_empty]
  simp only [String.append_assoc]
  rfl

/-- The arguments that name the operands of a contraction and what it keeps. -/
def operandListing : List Operand → List Label → String
  | [], kept => Text.intTuple kept
  | operand :: rest, kept =>
      tensorName operand.tensor ++ (", " ++ (Text.intTuple operand.labels ++ (", " ++ operandListing rest kept)))

theorem commaSeparated_operands (operands : List Operand) (kept : List Label) :
    Text.commaSeparated (renderArguments (operands.flatMap operandArguments ++ [.positional (intTuple kept)])) =
      operandListing operands kept := by
  have nonempty : ∀ arguments, renderArguments (arguments ++ [.positional (intTuple kept)]) ≠ [] := by
    intro arguments
    cases arguments <;> exact List.cons_ne_nil _ _
  induction operands with
  | nil =>
    rw [List.flatMap_nil, List.nil_append, renderArguments, renderArguments, Argument.render, render_intTuple,
      Text.commaSeparated, String.intercalate_singleton, operandListing]
  | cons operand rest ih =>
    rw [Text.commaSeparated] at ih ⊢
    simp only [List.flatMap_cons, operandArguments, List.cons_append, List.nil_append, renderArguments,
      Argument.render, render_intTuple, tensorVar, Expr.render, operandListing, ← ih]
    rw [String.intercalate_cons_cons, String.intercalate_cons_of_ne_nil (nonempty _)]
    simp only [String.append_assoc]

/-- How the tensor of a split is made a matrix, unless it is one. -/
def reshaping (s : Split) : String :=
  if s.rank = 2 then ""
  else String.join [".reshape((np.prod(", tensorName s.input, ".shape[:", toString (s.left : Int), "]), np.prod(",
    tensorName s.input, ".shape[", toString (s.left : Int), ":])))"]

theorem render_splitMatrix (s : Split) : (splitMatrix s).render = tensorName s.input ++ reshaping s := by
  unfold splitMatrix reshaping
  split
  · rw [tensorVar, Expr.render, String.append_empty]
  · simp only [reshape, size, leftAxes, rightAxes, shapeSlice, libraryCall, tensorVar, Expr.render, renderArguments,
      Argument.render, renderItems, renderBound, Text.tuple, Text.commaSeparated, String.intercalate_singleton,
      String.intercalate_cons_cons, Option.map_some, Option.map_none, String.append_assoc, String.join_cons]
    rfl

/-- A line that gives a tensor its axes back. -/
def restoration (tensor : TensorId) (axes : Expr) : String :=
  String.join ["    T", toString tensor, " = T", toString tensor, ".reshape(", axes.render, ")\n"]

theorem layout_restored {several : Prop} [Decidable several] {tensor : TensorId} {axes : Expr} {part : List Statement}
    (restored : (if several then (assign none tensor (reshape tensor axes)).map ([·]) else .ok []) = .ok part) :
    layout part = if several then restoration tensor axes else "" := by
  split at restored
  · rename_i here
    cases restored
    rw [if_pos here, layout, layout, render_assign, restoration]
    simp only [Target.render, reshape, tensorVar, Expr.render, renderArguments, Argument.render, Text.commaSeparated,
      String.intercalate_singleton, String.append_assoc, String.join_cons]
    rfl
  · rename_i missing
    cases restored
    rw [if_neg missing, layout]

/-- What the code for an operation says behind the name of its first output. -/
def continuation : Operation → String
  | .contraction c => String.join [" = np.einsum(", operandListing c.operands c.kept, ")\n"]
  | .transposition t =>
      String.join [" = np.transpose(", tensorName t.input, ", ", Text.intTuple t.permutation, ")\n"]
  | .split s =>
      String.join [", ", tensorName s.r, " = np.linalg.qr(", tensorName s.input, reshaping s, ", mode=\"reduced\")\n",
        if 1 < s.left then restoration s.q (.binary (leftAxes s) .add (shapeItem s.q 1)) else "",
        if 1 < s.right then restoration s.r (.binary (shapeItem s.r 0) .add (rightAxes s)) else ""]
  | .foreign _ => ""

/-- The text of the code for an operation. -/
theorem layout_statements {op : Operation} {part : List Statement} (generated : statements none op = .ok part) :
    ∃ tensor, op.outputs.head? = some tensor ∧
      layout part = "    T" ++ (toString tensor ++ continuation op) := by
  cases op with
  | contraction c =>
    cases generated
    refine ⟨c.output, rfl, ?_⟩
    rw [layout, layout, render_assign, continuation, ← commaSeparated_operands]
    simp only [Target.render, contractionCall, libraryCall, Expr.render, String.append_assoc, String.join_cons]
    rfl
  | transposition t =>
    cases generated
    refine ⟨t.output, rfl, ?_⟩
    rw [layout, layout, render_assign, continuation, ← render_intTuple]
    simp only [Target.render, transpositionCall, libraryCall, tensorVar, Expr.render, renderArguments,
      Argument.render, Text.commaSeparated, String.intercalate_singleton, String.intercalate_cons_cons,
      String.append_assoc, String.join_cons]
    rfl
  | split s =>
    obtain ⟨comment, commented, generated⟩ := Outcome.bind_eq_ok.mp generated
    obtain ⟨left, ofLeft, generated⟩ := Outcome.bind_eq_ok.mp generated
    obtain ⟨right, ofRight, done⟩ := Outcome.bind_eq_ok.mp generated
    cases commented
    cases done
    refine ⟨s.q, rfl, ?_⟩
    rw [layout, layout_append, layout_restored ofLeft, layout_restored ofRight, render_assign, continuation]
    simp only [Target.render, renderTargets, splitCall, libraryCall, Expr.render, renderArguments, Argument.render,
      render_splitMatrix, Text.commaSeparated, String.intercalate_singleton, String.intercalate_cons_cons,
      String.append_assoc, String.join_cons, String.join_nil, String.append_empty]
    rfl
  | foreign f => cases generated

end TensorNetwork.Codegen
