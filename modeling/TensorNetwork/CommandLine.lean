import TensorNetwork.Document

/-! The command line takes one file and writes the source text of the program
that it describes. -/
namespace TensorNetwork.CommandLine

def usage : String := "Usage: python -m tenet [input file]\n"

/-- What is written for the texts of the given files. -/
def output : List String → Except Error String
  | [text] => do (← Document.ofText text).compile
  | _ => .ok usage

end TensorNetwork.CommandLine
