import TensorNetwork.ParseTree

/-! Causes of failure and their wording. Each cause carries what its message
shows; `Error.kind` gathers the causes that callers treat alike. -/
namespace TensorNetwork

abbrev TensorId := Int

def tensorName (tensor : TensorId) : String := "T" ++ toString tensor

abbrev Label := Int

inductive Error where
  /-- A contraction of nothing. -/
  | noOperands
  /-- As many subscript lists as tensors are needed. -/
  | operandCount (tensors lists : Nat)
  | repeatedKept (kept : List Label)
  /-- A kept label belongs to several operands. -/
  | sharedKept (label : Label) (owners : List TensorId)
  /-- An axis that no entry of a permutation names. -/
  | missingAxis (permutation : List Int) (axis : Nat)
  | splitOfVector (rank : Int)
  /-- A split that leaves no axis on the left. -/
  | splitTooEarly (left : Int)
  /-- A split that leaves no axis on the right. -/
  | splitTooLate (rank left : Int)
  | negativeRank (rank : Int)
  | missingSubscripts (tensor : TensorId)
  /-- A session was asked about a tensor it does not hold. -/
  | unregistered (tensor : TensorId)
  | rankMismatch (tensor : TensorId) (rank used : Nat)
  /-- A kept label that no operand carries. -/
  | unboundLabel (label : Label)
  | duplicateOutput (tensor : TensorId)
  | noOutput
  /-- An operation of a kind without meaning here, by its description. -/
  | unsupported (description : String)
  /-- Something that is no operation, by its literal. -/
  | notAnOperation (literal : String)
  /-- Extents that are joined disagree, by their texts. -/
  | extentMismatch (label : Label) (tensor : TensorId) (found expected : String)
  | truthAsExtent (value : String)
  /-- A datum of a kind that is no extent. -/
  | notAnExtent (shown kind : String)
  /-- A table was asked about a tensor it does not hold. -/
  | unknownTensor (tensor : TensorId)
  /-- The bond of a split was sought in a shape without axes. -/
  | noBond
  | malformedOperation (text : String)
  | notLabels (tree : ParseTree)
  | notATensor (tree : ParseTree)
  | missingRule (rule : String) (tree : ParseTree)
  | unknownRule (tree : ParseTree)
  /-- A text that is no integer in a base, by its literal. -/
  | notAnInteger (base : Nat) (literal : String)
  /-- A text that is no number, by its literal. -/
  | notANumber (literal : String)
  /-- A tree where a number was sought. -/
  | labelIsTree
  /-- A leaf where a tree was sought. -/
  | leafNotSearchable
  | noLeaf
  | notAContraction
  | malformedDocument
  /-- A list inside a list that is a key. -/
  | nestedKey
  | noProgram
  | documentNotMapping
  | programNotMapping
  | noOperations
  | operationsNotListed
  | operationNotText
  | settingsNotMapping
  | shapesNotMapping
  | shapeKeyNotNumber
  | shapeKeyInfinite
  | shapeKeyNotANumber
  | shapeNotListed
  | nameNotText

namespace Error

/-- The groups of causes that callers tell apart. -/
inductive Kind where
  | structural
  | labelReference
  | duplicateOutput
  | noOutput
  | unsupportedOperation
  | shapeMismatch
  | malformedOperation
  | invalidValue
  | overflow
  | missingKey
  | malformedDocument
  | wrongType
  | missingMember
  | outOfRange
  | exhausted
  deriving DecidableEq

def kind : Error → Kind
  | .noOperands | .operandCount .. | .repeatedKept _ | .sharedKept .. | .missingAxis ..
  | .splitOfVector _ | .splitTooEarly _ | .splitTooLate .. | .negativeRank _
  | .missingSubscripts _ | .unregistered _ | .rankMismatch .. => .structural
  | .unboundLabel _ => .labelReference
  | .duplicateOutput _ => .duplicateOutput
  | .noOutput => .noOutput
  | .unsupported _ | .notAnOperation _ => .unsupportedOperation
  | .extentMismatch .. => .shapeMismatch
  | .malformedOperation _ => .malformedOperation
  | .truthAsExtent _ | .notAnExtent .. | .notLabels _ | .notATensor _ | .missingRule ..
  | .unknownRule _ | .notAnInteger .. | .notANumber _ | .noProgram | .shapeKeyNotANumber => .invalidValue
  | .shapeKeyInfinite => .overflow
  | .unknownTensor _ | .noOperations => .missingKey
  | .malformedDocument => .malformedDocument
  | .labelIsTree | .nestedKey | .programNotMapping | .operationsNotListed | .operationNotText
  | .shapeKeyNotNumber | .shapeNotListed | .nameNotText => .wrongType
  | .leafNotSearchable | .notAContraction | .documentNotMapping | .settingsNotMapping
  | .shapesNotMapping => .missingMember
  | .noBond => .outOfRange
  | .noLeaf => .exhausted

def message : Error → String
  | .noOperands => "Contraction requires at least one input"
  | .operandCount tensors lists =>
      s!"Inconsistent number of tensors for contraction: {tensors} inputs, {lists} subscript lists"
  | .repeatedKept kept => "Repeated contraction output label in " ++ Text.bracketedInts kept
  | .sharedKept label owners =>
      s!"Contraction output label {label} appears in several inputs: " ++ Text.commaSeparated (owners.map tensorName)
  | .missingAxis permutation axis =>
      "Invalid permutation " ++ Text.bracketedInts permutation ++ s!": entry {axis} missing"
  | .splitOfVector rank =>
      s!"Input tensor for QR splitting must have at least 2 dimensions; given {rank}"
  | .splitTooEarly left =>
      s!"Number of left dimensions for QR splitting must be at least 1; given {left}"
  | .splitTooLate rank left =>
      s!"Number of left dimensions for QR splitting must be smaller than {rank}; given {left}"
  | .negativeRank rank => s!"Rank of a tensor must be non-negative; given {rank}"
  | .missingSubscripts tensor => "No subscripts given for tensor " ++ tensorName tensor
  | .unregistered tensor | .unknownTensor tensor => "Unknown tensor " ++ tensorName tensor
  | .rankMismatch tensor rank used =>
      "Tensor " ++ tensorName tensor ++ s!" has {rank} dimensions, but is used with {used}"
  | .unboundLabel label => s!"Contraction output label {label} never appeared in the input subscripts"
  | .duplicateOutput tensor => "Output tensor " ++ tensorName tensor ++ " appeared previously"
  | .noOutput => "At least one output tensor expected"
  | .unsupported description => "Unsupported operation: " ++ description
  | .notAnOperation literal => "Cannot append " ++ literal ++ " to a program"
  | .extentMismatch label tensor found expected =>
      s!"Dimension {label} of " ++ tensorName tensor ++ " has extent " ++ found ++ ", expected " ++ expected
  | .truthAsExtent value => "Unable to use " ++ value ++ " as an extent"
  | .notAnExtent shown kind => "Unable to use " ++ shown ++ " with type <class '" ++ kind ++ "'> as an extent"
  | .noBond => "A shape without axes has no bond"
  | .malformedOperation text => "Unable to parse operation: " ++ text
  | .notLabels tree => "Unknown labels: " ++ tree.description
  | .notATensor tree => "Unknown tensor: " ++ tree.description
  | .missingRule rule tree => "No " ++ rule ++ " in " ++ tree.description
  | .unknownRule tree => "Unknown operation: " ++ tree.description
  | .notAnInteger base literal =>
      s!"invalid literal for int() with base {base}: " ++ String.ofList (literal.toList.take 200)
  | .notANumber literal => "could not convert string to float: " ++ literal
  | .labelIsTree => "A label is a tree"
  | .leafNotSearchable => "A leaf has no subtrees"
  | .noLeaf => "A tree without leaves has no text"
  | .notAContraction => "Only contractions have labels"
  | .malformedDocument => "Malformed document"
  | .nestedKey => "A key holds a list or a mapping"
  | .noProgram => "Input must contain a program"
  | .documentNotMapping => "The document is not a mapping"
  | .programNotMapping => "The program is not a mapping"
  | .noOperations => "operations"
  | .operationsNotListed => "The operations are not listed"
  | .operationNotText => "An operation is not a text"
  | .settingsNotMapping => "The settings are not a mapping"
  | .shapesNotMapping => "The shapes are not a mapping"
  | .shapeKeyNotNumber => "A tensor of the shapes is not a number"
  | .shapeKeyInfinite => "cannot convert float infinity to integer"
  | .shapeKeyNotANumber => "cannot convert float NaN to integer"
  | .shapeNotListed => "A shape is not listed"
  | .nameNotText => "The name of the function is not a text"

end Error

end TensorNetwork
