/-! Written sequences: items separated by a comma and a blank, between square
brackets or round ones. A round listing of one item keeps a trailing comma, so
that it cannot be taken for a parenthesized item. -/
namespace TensorNetwork.Text

def commaSeparated (items : List String) : String :=
  ", ".intercalate items

def bracketed (items : List String) : String :=
  "[" ++ commaSeparated items ++ "]"

def tuple : List String → String
  | [item] => "(" ++ item ++ ",)"
  | items => "(" ++ commaSeparated items ++ ")"

/-- A list of integers between square brackets. -/
def bracketedInts (values : List Int) : String :=
  bracketed (values.map toString)

/-- A list of integers between round brackets. -/
def intTuple (values : List Int) : String :=
  tuple (values.map toString)

end TensorNetwork.Text
