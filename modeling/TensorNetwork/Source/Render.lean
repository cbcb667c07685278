import TensorNetwork.Source.Basic
import TensorNetwork.Text.Listing

/-! The text of source code. A statement is laid out at a depth, four blanks for
each level; depths below zero have no indentation, and blank lines never have
any. -/
namespace TensorNetwork.Source

def Operator.render : Operator → String
  | .add => "+"

mutual
def Expr.render : Expr → String
  | .var name => name
  | .int value => toString value
  | .string text => "\"" ++ text ++ "\""
  | .tuple items => Text.tuple (renderItems items)
  | .field object name => object ++ "." ++ name
  | .access object index => object.render ++ "[" ++ index.render ++ "]"
  | .slice start stop => renderBound start ++ ":" ++ renderBound stop
  | .binary left operator right => left.render ++ " " ++ operator.render ++ " " ++ right.render
  | .call function arguments => function ++ "(" ++ Text.commaSeparated (renderArguments arguments) ++ ")"
  | .method object name arguments =>
      object.render ++ "." ++ name ++ "(" ++ Text.commaSeparated (renderArguments arguments) ++ ")"

def Argument.render : Argument → String
  | .positional value => value.render
  | .keyword name value => name ++ "=" ++ value.render

def renderItems : List Expr → List String
  | [] => []
  | item :: rest => item.render :: renderItems rest

/-- A bound of a slice may be left out. -/
def renderBound : Option Expr → String
  | none => ""
  | some bound => bound.render

def renderArguments : List Argument → List String
  | [] => []
  | argument :: rest => argument.render :: renderArguments rest
end

mutual
def Target.render : Target → String
  | .var name => name
  | .tuple targets => Text.commaSeparated (renderTargets targets)

def renderTargets : List Target → List String
  | [] => []
  | target :: rest => target.render :: renderTargets rest
end

def indentation (depth : Int) : String :=
  String.ofList (List.replicate (4 * depth.toNat) ' ')

def commentText : Option String → String
  | none => ""
  | some comment => "  # " ++ comment

mutual
def Statement.render (depth : Int) : Statement → String
  | .assign target value comment =>
      indentation depth ++ target.render ++ " = " ++ value.render ++ commentText comment
  | .blank => ""
  | .block statements => "\n".intercalate (renderStatements depth statements)
  | .function name parameters body =>
      indentation depth ++ "def " ++ name ++ "(" ++ Text.commaSeparated parameters ++ "):\n" ++
        body.render (depth + 1)
  | .load package localName =>
      indentation depth ++ "import " ++ package ++ (localName.map (" as " ++ ·)).getD ""
  | .result value => indentation depth ++ "return " ++ value.render

def renderStatements (depth : Int) : List Statement → List String
  | [] => []
  | statement :: rest => statement.render depth :: renderStatements depth rest
end

end TensorNetwork.Source
