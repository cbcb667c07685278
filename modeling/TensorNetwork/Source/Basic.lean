/-! Source code as a tree: expressions, the arguments of calls, the targets of
assignments, and statements. -/
namespace TensorNetwork.Source

inductive Operator where
  | add
  deriving DecidableEq

mutual
inductive Expr where
  | var (name : String)
  | int (value : Int)
  | string (text : String)
  | tuple (items : List Expr)
  /-- A field of a named object. -/
  | field (object name : String)
  | access (object index : Expr)
  | slice (start stop : Option Expr)
  | binary (left : Expr) (operator : Operator) (right : Expr)
  | call (function : String) (arguments : List Argument)
  | method (object : Expr) (name : String) (arguments : List Argument)

inductive Argument where
  | positional (value : Expr)
  | keyword (name : String) (value : Expr)
end

inductive Target where
  | var (name : String)
  | tuple (targets : List Target)

inductive Statement where
  | assign (target : Target) (value : Expr) (comment : Option String)
  | blank
  | block (statements : List Statement)
  | function (name : String) (parameters : List String) (body : Statement)
  | load (package : String) (localName : Option String)
  | result (value : Expr)

namespace Statement

/-- The statements that one contributes to a block: those of a block themselves. -/
def flattened : Statement → List Statement
  | .block statements => statements
  | statement => [statement]

/-- A block with a statement added at its end. -/
def extend (statements : List Statement) (statement : Statement) : List Statement :=
  statements ++ statement.flattened

end Statement
end TensorNetwork.Source
