import TensorNetwork.Proofs.Codegen.Footprint
import TensorNetwork.Proofs.Source.Comments

/-! Indentation in the text of source code. Laid out deeper, a statement has the same lines,
and each of them is moved to the right by four blanks for each level; lines without text
stay empty. So it is for every nesting of blocks and functions, as long as no name, string
or comment leaves its line. -/
namespace TensorNetwork

/-- A line moved to the right, unless there is nothing on it. -/
def Text.indented (width : Nat) (line : String) : String :=
  if line = "" then "" else String.ofList (List.replicate width ' ') ++ line

namespace Source
open Text Text.LineEnds

mutual
/-- The names and strings that an expression is written with. -/
def Expr.texts : Expr → List String
  | .var name => [name]
  | .int _ => []
  | .string text => [text]
  | .tuple items => Expr.textsAll items
  | .field object name => [object, name]
  | .access object index => object.texts ++ index.texts
  | .slice start stop => Expr.textsBound start ++ Expr.textsBound stop
  | .binary left _ right => left.texts ++ right.texts
  | .call function arguments => function :: Expr.textsArguments arguments
  | .method object name arguments => object.texts ++ name :: Expr.textsArguments arguments

def Expr.textsAll : List Expr → List String
  | [] => []
  | e :: rest => e.texts ++ Expr.textsAll rest

def Expr.textsBound : Option Expr → List String
  | none => []
  | some e => e.texts

def Expr.textsArguments : List Argument → List String
  | [] => []
  | argument :: rest => argument.texts ++ Expr.textsArguments rest

def Argument.texts : Argument → List String
  | .positional e => e.texts
  | .keyword name e => name :: e.texts
end

mutual
/-- The names, strings and comments that a statement is written with. -/
def Statement.texts : Statement → List String
  | .assign target value comment => target.names ++ value.texts ++ comment.toList
  | .blank => []
  | .block statements => textsOf statements
  | .function name parameters body => name :: parameters ++ body.texts
  | .load package localName => package :: localName.toList
  | .result value => value.texts

def textsOf : List Statement → List String
  | [] => []
  | statement :: rest => statement.texts ++ textsOf rest
end

variable {ends : LineEnds}

theorem inline_arguments {function : String} {arguments : List String} (named : ends.Inline function)
    (each : ∀ argument ∈ arguments, ends.Inline argument) :
    ends.Inline (function ++ "(" ++ commaSeparated arguments ++ ")") := by
  have opened : ends.Inline "(" := inline_of_printed (by decide)
  have closed : ends.Inline ")" := inline_of_printed (by decide)
  simp only [inline_append, inline_commaSeparated]
  exact ⟨⟨⟨named, opened⟩, each⟩, closed⟩

mutual
theorem Expr.inline_render : (e : Expr) → (∀ text ∈ e.texts, ends.Inline text) → ends.Inline e.render
  | .var name, inline => inline name List.mem_cons_self
  | .int value, _ => inline_int value
  | .string text, inline => inline_enclosed (by decide) (by decide) (inline text List.mem_cons_self)
  | .tuple items, inline => inline_tuple (Expr.inline_renderItems items inline)
  | .field object name, inline => by
      obtain ⟨first, second⟩ := List.forall_mem_cons.mp inline
      have dot : ends.Inline "." := inline_of_printed (by decide)
      simp only [Expr.render, inline_append]
      exact ⟨⟨first, dot⟩, second name List.mem_cons_self⟩
  | .access object index, inline => by
      obtain ⟨first, second⟩ := List.forall_mem_append.mp inline
      have opened : ends.Inline "[" := inline_of_printed (by decide)
      have closed : ends.Inline "]" := inline_of_printed (by decide)
      simp only [Expr.render, inline_append]
      exact ⟨⟨⟨object.inline_render first, opened⟩, index.inline_render second⟩, closed⟩
  | .slice start stop, inline => by
      obtain ⟨first, second⟩ := List.forall_mem_append.mp inline
      have colon : ends.Inline ":" := inline_of_printed (by decide)
      simp only [Expr.render, inline_append]
      exact ⟨⟨Expr.inline_renderBound start first, colon⟩, Expr.inline_renderBound stop second⟩
  | .binary left .add right, inline => by
      obtain ⟨first, second⟩ := List.forall_mem_append.mp inline
      have blank : ends.Inline " " := inline_of_printed (by decide)
      have plus : ends.Inline "+" := inline_of_printed (by decide)
      simp only [Expr.render, Operator.render, inline_append]
      exact ⟨⟨⟨⟨left.inline_render first, blank⟩, plus⟩, blank⟩, right.inline_render second⟩
  | .call function arguments, inline => by
      obtain ⟨named, others⟩ := List.forall_mem_cons.mp inline
      exact inline_arguments named (Expr.inline_renderArguments arguments others)
  | .method object name arguments, inline => by
      obtain ⟨first, second⟩ := List.forall_mem_append.mp inline
      obtain ⟨named, others⟩ := List.forall_mem_cons.mp second
      have dot : ends.Inline "." := inline_of_printed (by decide)
      have called : ends.Inline (object.render ++ "." ++ name) := by
        simp only [inline_append]
        exact ⟨⟨object.inline_render first, dot⟩, named⟩
      exact inline_arguments called (Expr.inline_renderArguments arguments others)

theorem Expr.inline_renderItems : (items : List Expr) → (∀ text ∈ Expr.textsAll items, ends.Inline text) →
    ∀ item ∈ renderItems items, ends.Inline item
  | [], _ => fun _ member => (List.not_mem_nil member).elim
  | e :: rest, inline => by
      obtain ⟨first, others⟩ := List.forall_mem_append.mp inline
      exact List.forall_mem_cons.mpr ⟨e.inline_render first, Expr.inline_renderItems rest others⟩

theorem Expr.inline_renderBound : (bound : Option Expr) → (∀ text ∈ Expr.textsBound bound, ends.Inline text) →
    ends.Inline (renderBound bound)
  | none, _ => inline_of_printed (by decide)
  | some e, inline => e.inline_render inline

theorem Expr.inline_renderArguments : (arguments : List Argument) →
    (∀ text ∈ Expr.textsArguments arguments, ends.Inline text) →
      ∀ argument ∈ renderArguments arguments, ends.Inline argument
  | [], _ => fun _ member => (List.not_mem_nil member).elim
  | argument :: rest, inline => by
      obtain ⟨first, others⟩ := List.forall_mem_append.mp inline
      exact List.forall_mem_cons.mpr ⟨argument.inline_render first, Expr.inline_renderArguments rest others⟩

theorem Argument.inline_render : (argument : Argument) → (∀ text ∈ argument.texts, ends.Inline text) →
    ends.Inline argument.render
  | .positional e, inline => e.inline_render inline
  | .keyword name e, inline => by
      obtain ⟨named, others⟩ := List.forall_mem_cons.mp inline
      have assigned : ends.Inline "=" := inline_of_printed (by decide)
      simp only [Argument.render, inline_append]
      exact ⟨⟨named, assigned⟩, e.inline_render others⟩
end

mutual
theorem Target.inline_render : (target : Target) → (∀ name ∈ target.names, ends.Inline name) →
    ends.Inline target.render
  | .var name, inline => inline name List.mem_cons_self
  | .tuple targets, inline => inline_commaSeparated.mpr (Target.inline_renderTargets targets inline)

theorem Target.inline_renderTargets : (targets : List Target) →
    (∀ name ∈ Target.namesAll targets, ends.Inline name) → ∀ target ∈ renderTargets targets, ends.Inline target
  | [], _ => fun _ member => (List.not_mem_nil member).elim
  | target :: rest, inline => by
      obtain ⟨first, others⟩ := List.forall_mem_append.mp inline
      exact List.forall_mem_cons.mpr ⟨target.inline_render first, Target.inline_renderTargets rest others⟩
end

theorem inline_commentText : (comment : Option String) → (∀ text ∈ comment.toList, ends.Inline text) →
    ends.Inline (commentText comment)
  | none, _ => inline_of_printed (by decide)
  | some comment, inline =>
      inline_append.mpr ⟨inline_of_printed (by decide), inline comment List.mem_cons_self⟩

/-- A layout gives a text for every depth. It shifts if its lines move to the right where it
is laid out deeper, and nothing else changes. -/
def Shifts (ends : LineEnds) (layout : Nat → String) : Prop :=
  ∀ m n, ends.lines (layout (m + n)) = (ends.lines (layout m)).map (indented (4 * n))

theorem shifts_empty : Shifts ends fun _ => "" := by
  have single : ends.lines "" = [""] := lines_of_inline (inline_of_printed (by decide))
  intro m n
  rw [single]
  rfl

theorem indentation_add (m n : Nat) :
    indentation ↑(m + n) = String.ofList (List.replicate (4 * n) ' ') ++ indentation ↑m := by
  rw [indentation, indentation, Int.toNat_natCast, Int.toNat_natCast, ← String.ofList_append,
    List.replicate_append_replicate, Nat.mul_add, Nat.add_comm]

theorem inline_indentation (depth : Int) : ends.Inline (indentation depth) := by
  apply inline_of_printed
  simp [indentation, isPrinted]

theorem shifts_line {line : String} (visible : line ≠ "") (inline : ends.Inline line) :
    Shifts ends fun depth => indentation depth ++ line := by
  have single : ∀ depth : Nat, ends.lines (indentation depth ++ line) = [indentation depth ++ line] :=
    fun depth => lines_of_inline (inline_append.mpr ⟨inline_indentation depth, inline⟩)
  intro m n
  have filled : indentation ↑m ++ line ≠ "" := by simp [visible]
  rw [single, single, List.map_singleton, indented, if_neg filled, indentation_add, String.append_assoc]

theorem Shifts.feed {first second : Nat → String} (here : Shifts ends first) (there : Shifts ends second) :
    Shifts ends fun depth => first depth ++ "\n" ++ second depth := by
  intro m n
  rw [lines_feed, lines_feed, List.map_append, here, there]

theorem Shifts.deeper {layout : Nat → String} (shifts : Shifts ends layout) :
    Shifts ends fun depth => layout (depth + 1) := by
  intro m n
  dsimp only
  rw [Nat.add_right_comm, shifts]

mutual
theorem shifts_render : (statement : Statement) → (∀ text ∈ statement.texts, ends.Inline text) →
    Shifts ends fun depth => statement.render depth
  | .assign target value comment, inline => by
      obtain ⟨shown, commented⟩ := List.forall_mem_append.mp inline
      obtain ⟨assigned, valued⟩ := List.forall_mem_append.mp shown
      have equals : ends.Inline " = " := inline_of_printed (by decide)
      simp only [Statement.render, String.append_assoc]
      apply shifts_line
      · simp
      · simp only [inline_append]
        exact ⟨target.inline_render assigned, equals, value.inline_render valued, inline_commentText comment commented⟩
  | .blank, _ => shifts_empty
  | .block statements, inline => shifts_renderStatements statements inline
  | .function name parameters body, inline => by
      obtain ⟨header, inside⟩ := List.forall_mem_append.mp inline
      obtain ⟨named, received⟩ := List.forall_mem_cons.mp header
      have keyword : ends.Inline "def " := inline_of_printed (by decide)
      have opened : ends.Inline "(" := inline_of_printed (by decide)
      have closed : ends.Inline "):" := inline_of_printed (by decide)
      simp only [render_function]
      refine Shifts.feed ?_ (shifts_render body inside).deeper
      simp only [String.append_assoc]
      apply shifts_line
      · simp
      · simp only [inline_append, inline_commaSeparated]
        exact ⟨keyword, named, opened, received, closed⟩
  | .load package localName, inline => by
      obtain ⟨named, renamed⟩ := List.forall_mem_cons.mp inline
      have keyword : ends.Inline "import " := inline_of_printed (by decide)
      have called : ends.Inline " as " := inline_of_printed (by decide)
      simp only [Statement.render, String.append_assoc]
      apply shifts_line
      · simp
      · simp only [inline_append]
        refine ⟨keyword, named, ?_⟩
        cases localName with
        | none => exact inline_of_printed (by decide)
        | some other => exact inline_append.mpr ⟨called, renamed other List.mem_cons_self⟩
  | .result value, inline => by
      have keyword : ends.Inline "return " := inline_of_printed (by decide)
      simp only [Statement.render, String.append_assoc]
      apply shifts_line
      · simp
      · exact inline_append.mpr ⟨keyword, value.inline_render inline⟩

theorem shifts_renderStatements : (statements : List Statement) → (∀ text ∈ textsOf statements, ends.Inline text) →
    Shifts ends fun depth => "\n".intercalate (renderStatements depth statements)
  | [], _ => shifts_empty
  | [statement], inline => by
      simp only [renderStatements, String.intercalate_singleton]
      exact shifts_render statement (List.forall_mem_append.mp inline).1
  | statement :: next :: rest, inline => by
      obtain ⟨first, others⟩ := List.forall_mem_append.mp inline
      simp only [renderStatements, String.intercalate_cons_cons]
      exact Shifts.feed (shifts_render statement first) (shifts_renderStatements (next :: rest) others)
end

/-- Laying out commutes with indentation: at every depth a statement has the lines that it
has at depth zero, with four blanks for each level in front of those that are not empty. -/
theorem render_commutes_with_indentation (ends : LineEnds) {statement : Statement}
    (inline : ∀ text ∈ statement.texts, ends.Inline text) (depth : Nat) :
    ends.lines (statement.render depth) = (ends.lines (statement.render 0)).map (indented (4 * depth)) := by
  have moved := shifts_render statement inline 0 depth
  rwa [Nat.zero_add] at moved

/-- A function within another one, an empty body and a blank line. -/
theorem render_commutes_with_indentation_nested :
    let inner : Statement := .function "g" ["x", "y"] (.block [])
    let outer : Statement := .function "f" [] (.block
      [inner, .blank, .assign (.tuple [.var "q", .var "r"]) (.call "g" [.keyword "x" (.int (-1))]) (some "é"),
        .result (.string " ")])
    (∀ text ∈ outer.texts, feeds.Inline text) ∧
      feeds.lines (outer.render 2) =
        ["        def f():", "            def g(x, y):", "", "", "            q, r = g(x=-1)  # é",
          "            return \" \""] := by
  intro inner outer
  have inline : ∀ text ∈ outer.texts, feeds.Inline text := by
    simp only [inline_iff]
    decide +kernel
  exact ⟨inline, (render_commutes_with_indentation feeds inline 2).trans (by decide +kernel)⟩

end Source
end TensorNetwork
