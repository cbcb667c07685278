import TensorNetwork.Operation.Basic

/-! The written forms of operations. The text of an operation is what the reader
of operations accepts; the description lists all fields. An operation of an
unknown kind has its description for text. -/
namespace TensorNetwork

def Operand.text (operand : Operand) : String :=
  tensorName operand.tensor ++ Text.bracketedInts operand.labels

def Contraction.text (c : Contraction) : String :=
  tensorName c.output ++ " = einsum(" ++ Text.commaSeparated (c.operands.map Operand.text) ++ " -> " ++
    Text.bracketedInts c.kept ++ ")"

def Contraction.description (c : Contraction) : String :=
  "(Contraction, " ++ Text.intTuple c.inputs ++ ", " ++ Text.tuple (c.subscripts.map Text.intTuple) ++ ", " ++
    Text.intTuple c.kept ++ ", " ++ toString c.output ++ ")"

def Transposition.text (t : Transposition) : String :=
  tensorName t.output ++ " = transpose(" ++ tensorName t.input ++ ", " ++
    Text.bracketedInts t.permutation ++ ")"

def Transposition.description (t : Transposition) : String :=
  "(Transposition, " ++ toString t.input ++ ", " ++ Text.intTuple t.permutation ++ ", " ++
    toString t.output ++ ")"

def Split.text (s : Split) : String :=
  tensorName s.q ++ ", " ++ tensorName s.r ++ " = qr(" ++ tensorName s.input ++ ", rank=" ++
    toString s.rank ++ ", left=" ++ toString s.left ++ ")"

def Split.description (s : Split) : String :=
  "(QRSplit, " ++ toString s.input ++ ", " ++ toString s.rank ++ ", " ++ toString s.left ++ ", " ++
    toString s.q ++ ", " ++ toString s.r ++ ")"

def Foreign.description (f : Foreign) : String := "(" ++ f.name ++ ", )"

namespace Operation

def description : Operation → String
  | .contraction c => c.description
  | .transposition t => t.description
  | .split s => s.description
  | .foreign f => f.description

def text : Operation → String
  | .contraction c => c.text
  | .transposition t => t.text
  | .split s => s.text
  | .foreign f => f.description

end Operation
end TensorNetwork
