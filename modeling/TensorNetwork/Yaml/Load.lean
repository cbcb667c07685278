import TensorNetwork.Yaml.Node
import TensorNetwork.Yaml.Plain

/-! The data of a document. The keys of a mapping are distinct, lists among them
are fixed, and mappings cannot be keys. The entries that a mapping merges from
others come first and give way to its own. -/
namespace TensorNetwork.Yaml

/-- A list or a mapping inside a key makes it unusable. -/
def isCollection : Datum → Bool
  | .list _ => true
  | .mapping _ => true
  | _ => false

def keyOf : Datum → Except Error Datum
  | .mapping _ => .error .malformedDocument
  | .list items => if items.any isCollection then .error .nestedKey else .ok (.tuple items)
  | key => .ok key

/-- Sets an entry: an equal key keeps its place and takes the new value. -/
def setEntry (entry : Entry) : List Entry → List Entry
  | [] => [entry]
  | other :: rest =>
      if other.key.equal entry.key then ⟨other.key, entry.value⟩ :: rest else other :: setEntry entry rest

/-- Adds an entry with a new key. -/
def addEntry (entries : List Entry) (entry : Entry) : Except Error (List Entry) :=
  if entries.any fun other => other.key.equal entry.key then .error .malformedDocument
  else .ok (entries ++ [entry])

/-- An entry of a mapping before merging. -/
inductive Part where
  | own (entry : Entry)
  | merged (value : Datum)

/-- The mappings that are merged; of several the first prevails. -/
def mergedEntries : Datum → Except Error (List Entry)
  | .mapping entries => .ok entries
  | .list items => do
      let parts ← items.mapM fun
        | .mapping entries => .ok entries
        | _ => .error Error.malformedDocument
      .ok parts.reverse.flatten
  | _ => .error .malformedDocument

def ownEntries (parts : List Part) : List Entry :=
  parts.filterMap fun
    | .own entry => some entry
    | .merged _ => none

def mergedValues (parts : List Part) : List Datum :=
  parts.filterMap fun
    | .own _ => none
    | .merged value => some value

/-- Only one of the merged values may have entries. -/
def mergeValue (merged : List Entry) (value : Datum) : Except Error (List Entry) :=
  if merged.isEmpty then mergedEntries value else .error .malformedDocument

def assemble (parts : List Part) : Except Error Datum := do
  match ← (mergedValues parts).foldlM mergeValue [] with
  | [] => do .ok (.mapping (← (ownEntries parts).foldlM addEntry []))
  | merged =>
      .ok (.mapping ((merged ++ ownEntries parts).foldl (fun entries entry => setEntry entry entries) []))

/-- Whether a key asks for merging. -/
def isMerge : Node → Bool
  | .scalar none true ['<', '<'] => true
  | _ => false

/-- The name of a tag of the language itself. -/
def coreName? (tag : List Char) : Option String :=
  if Directives.coreStem.isPrefixOf tag then some (String.ofList (tag.drop Directives.coreStem.length)) else none

/-- The datum of a scalar, by its tag or else by its text. -/
def scalarDatum (tag : Option (List Char)) (plain : Bool) (text : List Char) : Except Error Datum :=
  match tag with
  | none => if plain then plainDatum text else .ok (.text (String.ofList text))
  | some ['!'] => .ok (.text (String.ofList text))
  | some tag =>
      match coreName? tag with
      | some "str" => .ok (.text (String.ofList text))
      | some "null" => .ok .null
      | some "bool" | some "int" | some "float" => plainDatum text
      | _ => .error .malformedDocument

/-- A lone equals sign serves as a key. -/
def keyScalar (tag : Option (List Char)) (plain : Bool) (text : List Char) : Except Error Datum :=
  if text = ['='] then .ok (.text "=") else scalarDatum tag plain text

/-- A collection without a tag, or with the tag of its kind. -/
def knownTag (tag : Option (List Char)) (name : String) : Bool :=
  match tag with
  | none => true
  | some ['!'] => true
  | some tag => coreName? tag = some name

mutual
def Node.datum : Node → Except Error Datum
  | .scalar tag plain text => scalarDatum tag plain text
  | .sequence tag items =>
      if knownTag tag "seq" then (Node.data items).map .list else .error .malformedDocument
  | .mapping tag entries =>
      if knownTag tag "map" then do assemble (← Node.parts entries) else .error .malformedDocument

def Node.data : List Node → Except Error (List Datum)
  | [] => .ok []
  | node :: rest => do
      let first ← node.datum
      .ok (first :: (← Node.data rest))

def Node.parts : List NodeEntry → Except Error (List Part)
  | [] => .ok []
  | ⟨key, value⟩ :: rest => do
      if isMerge key then
        let merged ← value.datum
        .ok (.merged merged :: (← Node.parts rest))
      else
        let name ← match key with
          | .scalar tag plain text => keyScalar tag plain text
          | other => other.datum
        let name ← keyOf name
        let content ← value.datum
        .ok (.own ⟨name, content⟩ :: (← Node.parts rest))
end

/-- The data of a text; a text without a document is null. -/
def load (text : String) : Except Error Datum :=
  match (tokens? text).bind Node.ofTokens? with
  | none => .error .malformedDocument
  | some none => .ok .null
  | some (some root) => root.datum

end TensorNetwork.Yaml
