import Mathlib.Algebra.BigOperators.Group.List.Basic
import TensorNetwork.Proofs.Text.Lines
import TensorNetwork.Source.Render

/-! Comments in the text of source code. Code and the same code without its comments have
the same lines up to what follows a mark at the end of a line, exactly if no comment
leaves its line: a line end inside a comment makes one line more. -/
namespace TensorNetwork

namespace Text.LineEnds
variable {ends : LineEnds}

theorem annotates_intercalate {plain annotated : List String} (each : List.Forall₂ ends.Annotates plain annotated) :
    ends.Annotates ("\n".intercalate plain) ("\n".intercalate annotated) := by
  induction each with
  | nil => exact annotates_refl _
  | cons first rest ih =>
    cases rest with
    | nil =>
      rw [String.intercalate_singleton, String.intercalate_singleton]
      exact first
    | cons second others =>
      rw [String.intercalate_cons_cons, String.intercalate_cons_cons]
      exact first.feed ih

/-- Line feeds part the items of a listing; each of them counts. -/
theorem endCount_intercalate (items : List String) :
    ends.endCount ("\n".intercalate items) = (items.map ends.endCount).sum + (items.length - 1) := by
  induction items with
  | nil => rfl
  | cons first rest ih =>
    cases rest with
    | nil => simp [String.intercalate_singleton]
    | cons second others =>
      have one : ends.endCount "\n" = 1 := by simp [endCount, ends.feed]
      rw [String.intercalate_cons_cons, endCount_append, endCount_append, ih, one]
      simp only [List.map_cons, List.sum_cons, List.length_cons]
      omega

end Text.LineEnds

namespace Source
open Text Text.LineEnds

mutual
/-- A statement without its comments. -/
def Statement.uncommented : Statement → Statement
  | .assign target value _ => .assign target value none
  | .blank => .blank
  | .block statements => .block (uncommentedAll statements)
  | .function name parameters body => .function name parameters body.uncommented
  | .load package localName => .load package localName
  | .result value => .result value

def uncommentedAll : List Statement → List Statement
  | [] => []
  | statement :: rest => statement.uncommented :: uncommentedAll rest
end

mutual
/-- The comments of a statement, in order. -/
def Statement.comments : Statement → List String
  | .assign _ _ comment => comment.toList
  | .blank => []
  | .block statements => commentsOf statements
  | .function _ _ body => body.comments
  | .load .. => []
  | .result _ => []

def commentsOf : List Statement → List String
  | [] => []
  | statement :: rest => statement.comments ++ commentsOf rest
end

theorem uncommentedAll_eq_map (statements : List Statement) :
    uncommentedAll statements = statements.map Statement.uncommented := by
  induction statements with
  | nil => rfl
  | cons statement rest ih => rw [uncommentedAll, ih, List.map_cons]

theorem commentsOf_eq_flatMap (statements : List Statement) :
    commentsOf statements = statements.flatMap Statement.comments := by
  induction statements with
  | nil => rfl
  | cons statement rest ih => rw [commentsOf, ih, List.flatMap_cons]

theorem length_renderStatements (depth : Int) (statements : List Statement) :
    (renderStatements depth statements).length = statements.length := by
  induction statements with
  | nil => rfl
  | cons statement rest ih => rw [renderStatements, List.length_cons, ih, List.length_cons]

/-- The header of a function stands on lines of its own. -/
theorem render_function (depth : Int) (name : String) (parameters : List String) (body : Statement) :
    (Statement.function name parameters body).render depth =
      indentation depth ++ "def " ++ name ++ "(" ++ commaSeparated parameters ++ "):" ++ "\n" ++
        body.render (depth + 1) := by
  have feed : "):\n" = "):" ++ "\n" := by decide
  rw [Statement.render, feed, ← String.append_assoc]

variable {ends : LineEnds}

mutual
theorem annotates_render (depth : Int) : (statement : Statement) →
    (∀ comment ∈ statement.comments, ends.Inline comment) →
      ends.Annotates (statement.uncommented.render depth) (statement.render depth)
  | .assign _ _ none, _ => annotates_refl _
  | .assign target value (some comment), inline => by
      have here : ends.Inline comment := inline comment (by simp [Statement.comments])
      rw [Statement.uncommented, Statement.render, Statement.render, commentText, commentText, String.append_empty,
        ← String.append_assoc]
      exact annotates_comment here _
  | .blank, _ => annotates_refl _
  | .block statements, inline => annotates_intercalate (annotates_renderAll depth statements inline)
  | .function name parameters body, inline => by
      rw [Statement.uncommented, render_function, render_function]
      exact (annotates_refl _).feed (annotates_render (depth + 1) body inline)
  | .load .., _ => annotates_refl _
  | .result _, _ => annotates_refl _

theorem annotates_renderAll (depth : Int) : (statements : List Statement) →
    (∀ comment ∈ commentsOf statements, ends.Inline comment) →
      List.Forall₂ ends.Annotates (renderStatements depth (uncommentedAll statements))
        (renderStatements depth statements)
  | [], _ => .nil
  | statement :: rest, inline =>
      .cons (annotates_render depth statement fun comment member => inline comment (List.mem_append_left _ member))
        (annotates_renderAll depth rest fun comment member => inline comment (List.mem_append_right _ member))
end

mutual
/-- A comment brings its line ends along. -/
theorem endCount_render (depth : Int) : (statement : Statement) →
    ends.endCount (statement.render depth) =
      ends.endCount (statement.uncommented.render depth) + (statement.comments.map ends.endCount).sum
  | .assign _ _ none => (Nat.add_zero _).symm
  | .assign target value (some comment) => by
      have mark : ends.endCount "  # " = 0 := inline_iff.mp (inline_of_printed (by decide))
      rw [Statement.uncommented, Statement.render, Statement.render, commentText, commentText, String.append_empty,
        endCount_append _ ("  # " ++ comment), endCount_append "  # ", mark]
      simp [Statement.comments]
  | .blank => (Nat.add_zero _).symm
  | .block statements => by
      have sums := endCount_renderAll depth statements
      have lengths : (uncommentedAll statements).length = statements.length := by
        rw [uncommentedAll_eq_map, List.length_map]
      rw [Statement.uncommented, Statement.render, Statement.render, endCount_intercalate, endCount_intercalate,
        length_renderStatements, length_renderStatements, lengths, sums, Statement.comments]
      omega
  | .function name parameters body => by
      rw [Statement.uncommented, render_function, render_function, endCount_append,
        endCount_append _ (body.uncommented.render _), endCount_render (depth + 1) body, Statement.comments,
        Nat.add_assoc]
  | .load .. => (Nat.add_zero _).symm
  | .result _ => (Nat.add_zero _).symm

theorem endCount_renderAll (depth : Int) : (statements : List Statement) →
    ((renderStatements depth statements).map ends.endCount).sum =
      ((renderStatements depth (uncommentedAll statements)).map ends.endCount).sum +
        ((commentsOf statements).map ends.endCount).sum
  | [] => rfl
  | statement :: rest => by
      rw [renderStatements, uncommentedAll, renderStatements, commentsOf, List.map_cons, List.map_cons,
        List.map_append, List.sum_cons, List.sum_cons, List.sum_append, endCount_render depth statement,
        endCount_renderAll depth rest]
      omega
end

/-- Code differs from the code without its comments by comments at the ends of lines,
exactly if no comment holds a line end. -/
theorem annotates_render_iff (depth : Int) (statement : Statement) :
    ends.Annotates (statement.uncommented.render depth) (statement.render depth) ↔
      ∀ comment ∈ statement.comments, ends.Inline comment := by
  refine ⟨fun annotates comment member => ?_, annotates_render depth statement⟩
  have counted := annotates.endCount_eq
  rw [endCount_render depth statement] at counted
  have none : (statement.comments.map ends.endCount).sum = 0 := by omega
  rw [List.sum_eq_zero_iff_forall_eq_nat] at none
  exact inline_iff.mpr (none _ (List.mem_map_of_mem member))

end Source
end TensorNetwork
