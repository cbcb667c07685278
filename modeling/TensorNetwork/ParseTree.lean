import TensorNetwork.Text.Listing
import TensorNetwork.Text.Quoted

/-! Parse trees: a rule with its children, a token with its text, or the place of
something optional that is absent. -/
namespace TensorNetwork

inductive ParseTree where
  | node (rule : String) (children : List ParseTree)
  | token (kind text : String)
  | absent

namespace ParseTree

mutual
/-- The tree written as an expression that builds it. -/
def description : ParseTree → String
  | .node rule children =>
      "Tree(" ++ Text.quoted rule ++ ", " ++ Text.bracketed (descriptions children) ++ ")"
  | .token kind text => "Token(" ++ Text.quoted kind ++ ", " ++ Text.quoted text ++ ")"
  | .absent => "None"

def descriptions : List ParseTree → List String
  | [] => []
  | tree :: rest => tree.description :: descriptions rest
end

mutual
/-- The leaves from left to right. -/
def leaves : ParseTree → List ParseTree
  | .node _ children => forestLeaves children
  | leaf => [leaf]

def forestLeaves : List ParseTree → List ParseTree
  | [] => []
  | tree :: rest => tree.leaves ++ forestLeaves rest
end

/-- Joins two lists of levels level by level. -/
def joinLevels {α : Type} : List (List α) → List (List α) → List (List α)
  | [], bs => bs
  | as, [] => as
  | a :: as, b :: bs => (a ++ b) :: joinLevels as bs

mutual
/-- The nodes by their depth, each level from left to right. -/
def levels : ParseTree → List (List ParseTree)
  | .node rule children => [.node rule children] :: forestLevels children
  | _ => []

def forestLevels : List ParseTree → List (List ParseTree)
  | [] => []
  | tree :: rest => joinLevels tree.levels (forestLevels rest)
end

def hasRule (rule : String) : ParseTree → Bool
  | .node own _ => own = rule
  | _ => false

/-- The first node with a rule: the deepest level first, each level from left to
right. -/
def firstWithRule? (rule : String) (tree : ParseTree) : Option ParseTree :=
  tree.levels.reverse.flatten.find? (hasRule rule)

/-- What a leaf shows. -/
def leafText : ParseTree → String
  | .token _ text => text
  | tree => tree.description

end ParseTree
end TensorNetwork
