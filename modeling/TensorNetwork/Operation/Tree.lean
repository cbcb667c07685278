import TensorNetwork.Error
import TensorNetwork.Operation.Token

/-! Parse trees of written operations:

    einsum:    tensor "=" "einsum" "(" operand ("," operand)* "->" labels ")"
    transpose: tensor "=" "transpose" "(" tensor "," labels ")"
    qr:        tensor "," tensor "=" "qr" "(" tensor "," "rank" "=" INT "," "left" "=" INT ")"
    operand:   tensor labels
    labels:    "[" [INT ("," INT)*] "]"
    tensor:    TENSOR

Keywords and punctuation leave no trace in the tree; an empty list of labels
has one absent child. -/
namespace TensorNetwork.ParseTree

def tensorNode (digits : List Char) : ParseTree :=
  .node "tensor" [.token "TENSOR" (String.ofList ('T' :: digits))]

def intToken (digits : List Char) : ParseTree := .token "INT" (String.ofList digits)

def operandNode (digits : List Char) (labels : ParseTree) : ParseTree :=
  .node "operand" [tensorNode digits, labels]

/-- Further labels up to the closing bracket. -/
def moreLabels? : List Token → Option (List ParseTree × List Token)
  | .closeSquare :: rest => some ([], rest)
  | .comma :: .int digits :: rest =>
      (moreLabels? rest).map fun (labels, rest) => (intToken digits :: labels, rest)
  | _ => none

def labels? : List Token → Option (ParseTree × List Token)
  | .openSquare :: .closeSquare :: rest => some (.node "labels" [.absent], rest)
  | .openSquare :: .int digits :: rest =>
      (moreLabels? rest).map fun (labels, rest) => (.node "labels" (intToken digits :: labels), rest)
  | _ => none

def operand? : List Token → Option (ParseTree × List Token)
  | .tensor digits :: rest => (labels? rest).map fun (labels, rest) => (operandNode digits labels, rest)
  | _ => none

theorem moreLabels?_shorter {tokens rest : List Token} {labels : List ParseTree}
    (read : moreLabels? tokens = some (labels, rest)) : rest.length < tokens.length := by
  fun_induction moreLabels? tokens generalizing labels with
  | case1 => simp_all
  | case2 digits tail ih =>
    obtain ⟨⟨inner, after⟩, found, same⟩ := Option.map_eq_some_iff.mp read
    simp only [Prod.mk.injEq] at same
    have := ih (same.2 ▸ found)
    simp only [List.length_cons]
    omega
  | case3 => simp at read

theorem labels?_shorter {tokens rest : List Token} {tree : ParseTree}
    (read : labels? tokens = some (tree, rest)) : rest.length < tokens.length := by
  unfold labels? at read
  split at read
  · simp only [Option.some.injEq, Prod.mk.injEq] at read
    simp only [List.length_cons, read.2]
    omega
  · obtain ⟨⟨inner, after⟩, found, same⟩ := Option.map_eq_some_iff.mp read
    simp only [Prod.mk.injEq] at same
    have := moreLabels?_shorter (same.2 ▸ found)
    simp only [List.length_cons]
    omega
  · simp at read

theorem operand?_shorter {tokens rest : List Token} {tree : ParseTree}
    (read : operand? tokens = some (tree, rest)) : rest.length < tokens.length := by
  unfold operand? at read
  split at read
  · obtain ⟨⟨inner, after⟩, found, same⟩ := Option.map_eq_some_iff.mp read
    simp only [Prod.mk.injEq] at same
    have := labels?_shorter (same.2 ▸ found)
    simp only [List.length_cons]
    omega
  · simp at read

/-- Further operands up to the arrow. -/
def moreOperands? (tokens : List Token) : Option (List ParseTree × List Token) :=
  match tokens with
  | .arrow :: rest => some ([], rest)
  | .comma :: rest =>
      match _read : operand? rest with
      | some (operand, after) =>
          (moreOperands? after).map fun (operands, rest) => (operand :: operands, rest)
      | none => none
  | _ => none
termination_by tokens.length
decreasing_by
  have := operand?_shorter _read
  simp only [List.length_cons]
  omega

def operands? (tokens : List Token) : Option (List ParseTree × List Token) :=
  match operand? tokens with
  | some (operand, rest) =>
      (moreOperands? rest).map fun (operands, rest) => (operand :: operands, rest)
  | none => none

/-- What follows the opening bracket of a contraction. -/
def einsumBody? (output : List Char) (tokens : List Token) : Option ParseTree :=
  match operands? tokens with
  | some (operands, rest) =>
      match labels? rest with
      | some (kept, [.closeRound]) => some (.node "einsum" (tensorNode output :: operands ++ [kept]))
      | _ => none
  | none => none

/-- What follows the opening bracket of a transposition. -/
def transposeBody? (output : List Char) : List Token → Option ParseTree
  | .tensor input :: .comma :: rest =>
      match labels? rest with
      | some (permutation, [.closeRound]) =>
          some (.node "transpose" [tensorNode output, tensorNode input, permutation])
      | _ => none
  | _ => none

def ofTokens? : List Token → Option ParseTree
  | .tensor output :: .equals :: .keyword .einsum :: .openRound :: rest => einsumBody? output rest
  | .tensor output :: .equals :: .keyword .transpose :: .openRound :: rest => transposeBody? output rest
  | [.tensor q, .comma, .tensor r, .equals, .keyword .qr, .openRound, .tensor input, .comma,
      .keyword .rank, .equals, .int rank, .comma, .keyword .left, .equals, .int left, .closeRound] =>
      some (.node "qr" [tensorNode q, tensorNode r, tensorNode input, intToken rank, intToken left])
  | _ => none

/-- The parse tree of a written operation. -/
def ofText (text : String) : Except Error ParseTree :=
  match (Token.scan? text.toList).bind ofTokens? with
  | some tree => .ok tree
  | none => .error (.malformedOperation text)

end TensorNetwork.ParseTree
