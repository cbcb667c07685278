import TensorNetwork.Yaml.Token

/-! The tree of a document, made of its tokens. An alias stands for a copy of the
node that it names; inside that node itself it stands for an empty collection
of the same kind. Whatever may be left out and is missing is an empty plain
scalar. -/
namespace TensorNetwork.Yaml

mutual
inductive Node where
  | scalar (tag : Option (List Char)) (plain : Bool) (text : List Char)
  | sequence (tag : Option (List Char)) (items : List Node)
  | mapping (tag : Option (List Char)) (entries : List NodeEntry)

structure NodeEntry where
  key : Node
  value : Node
end

/-- What the directives of a document say: that its version was given, and what handles
of tags stand for. Scalars are read by the rules of version 1.2 in any case. -/
structure Directives where
  versioned : Bool
  handles : List (List Char × List Char)

namespace Directives

/-- Nothing is said twice, and documents of other major versions are not read. -/
def add (said : Directives) : Directive → Option Directives
  | .version major => if said.versioned || major ≠ 1 then none else some { said with versioned := true }
  | .handle name stem =>
      if said.handles.any fun known => known.1 = name then none
      else some { said with handles := (name, stem) :: said.handles }
  | .other => some said

/-- The text that the tags of the language itself start with. -/
def coreStem : List Char := "tag:yaml.org,2002:".toList

def stem? (said : Directives) (name : List Char) : Option (List Char) :=
  match said.handles.find? fun known => known.1 = name with
  | some (_, stem) => some stem
  | none => if name = ['!'] then some ['!'] else if name = ['!', '!'] then some coreStem else none

/-- The full text of a tag. -/
def tag? (said : Directives) : List Char → Option (List Char)
  | ['!'] => some ['!']
  | '!' :: '<' :: rest => if rest.getLast? = some '>' then some rest.dropLast else none
  | '!' :: rest =>
      match rest.span (· ≠ '!') with
      | (_, []) => (said.stem? ['!']).map (· ++ rest)
      | (word, _ :: name) =>
          if name ≠ [] && word.all Directive.isWordChar then
            (said.stem? ('!' :: word ++ ['!'])).map (· ++ name)
          else none
  | _ => none

/-- A token whose tag, if it is one, has its full text. -/
def token? (said : Directives) : Token → Option Token
  | .tag spelled => (said.tag? spelled).map .tag
  | token => some token

end Directives

def emptyScalar : Node := .scalar none true []

/-- Tokens still to be read, and the nodes named so far, latest first. -/
structure Reader where
  tokens : List Token
  named : List (List Char × Node)

namespace Reader

def head? (r : Reader) : Option Token := r.tokens.head?

/-- Whether the next token is one of some tokens. -/
def faces (r : Reader) (tokens : List Token) : Bool :=
  match r.tokens with
  | token :: _ => tokens.contains token
  | [] => false

def skip (r : Reader) : Reader := { r with tokens := r.tokens.drop 1 }

def called (r : Reader) (anchor : Option (List Char)) (node : Node) : Reader :=
  match anchor with
  | some name => { r with named := (name, node) :: r.named }
  | none => r

/-- The anchor and tag in front of a node, in either order. -/
def properties (r : Reader) : Option (List Char) × Option (List Char) × Reader :=
  match r.tokens with
  | .anchor name :: .tag tag :: rest => (some name, some tag, { r with tokens := rest })
  | .tag tag :: .anchor name :: rest => (some name, some tag, { r with tokens := rest })
  | .anchor name :: rest => (some name, none, { r with tokens := rest })
  | .tag tag :: rest => (none, some tag, { r with tokens := rest })
  | _ => (none, none, r)

/-- Where a node may stand. -/
inductive Place where
  | flow
  | block
  /-- In a block mapping, where a sequence needs no indentation of its own. -/
  | inMapping
  deriving DecidableEq

/-- A node of which nothing but an anchor or a tag is given. -/
def leftOut (anchor tag : Option (List Char)) (r : Reader) : Option (Node × Reader) :=
  if anchor.isSome || tag.isSome then
    let scalar := Node.scalar tag true []
    some (scalar, r.called anchor scalar)
  else none

mutual
/-- A node. The rounds bound the nesting of calls. -/
def node (place : Place) : Nat → Reader → Option (Node × Reader)
  | 0, _ => none
  | rounds + 1, r =>
      match r.tokens with
      | .reference name :: rest =>
          (r.named.find? fun (known, _) => known = name).map fun (_, node) =>
            (node, { r with tokens := rest })
      | _ =>
          let (anchor, tag, r) := r.properties
          let asSequence := fun read : Option (List Node × Reader) => read.map fun (items, r) =>
            (Node.sequence tag items, r.called anchor (.sequence tag items))
          let asMapping := fun read : Option (List NodeEntry × Reader) => read.map fun (entries, r) =>
            (Node.mapping tag entries, r.called anchor (.mapping tag entries))
          let opened := fun r : Reader => r.called anchor (.sequence tag [])
          let openedMapping := fun r : Reader => r.called anchor (.mapping tag [])
          match r.tokens with
          | .scalar plain text :: rest =>
              let scalar := Node.scalar tag plain text
              some (scalar, { r with tokens := rest }.called anchor scalar)
          | .flowSequenceStart :: _ => asSequence (flowSequence rounds true (opened r.skip))
          | .flowMappingStart :: _ => asMapping (flowMapping rounds true (openedMapping r.skip))
          | .blockEntry :: _ =>
              if place = .inMapping then asSequence (plainSequence rounds (opened r))
              else leftOut anchor tag r
          | .blockSequenceStart :: _ =>
              if place = .flow then leftOut anchor tag r
              else asSequence (blockSequence rounds (opened r.skip))
          | .blockMappingStart :: _ =>
              if place = .flow then leftOut anchor tag r
              else asMapping (blockMapping rounds (openedMapping r.skip))
          | _ => leftOut anchor tag r

/-- A node, or nothing in front of some tokens. -/
def optional (place : Place) (ends : List Token) : Nat → Reader → Option (Node × Reader)
  | 0, _ => none
  | rounds + 1, r => if r.faces ends then some (emptyScalar, r) else node place rounds r

/-- The entries of a block sequence up to its end. -/
def blockSequence : Nat → Reader → Option (List Node × Reader)
  | 0, _ => none
  | rounds + 1, r =>
      if r.faces [.blockEntry] then do
        let (item, r) ← optional .block [.blockEntry, .blockEnd] rounds r.skip
        let (items, r) ← blockSequence rounds r
        some (item :: items, r)
      else if r.faces [.blockEnd] then some ([], r.skip)
      else none

/-- The entries of a sequence that shares the indentation of a mapping. -/
def plainSequence : Nat → Reader → Option (List Node × Reader)
  | 0, _ => none
  | rounds + 1, r =>
      if r.faces [.blockEntry] then do
        let (item, r) ← optional .block [.blockEntry, .key, .value, .blockEnd] rounds r.skip
        let (items, r) ← plainSequence rounds r
        some (item :: items, r)
      else some ([], r)

/-- The entries of a block mapping up to its end. -/
def blockMapping : Nat → Reader → Option (List NodeEntry × Reader)
  | 0, _ => none
  | rounds + 1, r =>
      if r.faces [.key, .value] then do
        let (key, r) ←
          if r.faces [.key] then optional .inMapping [.key, .value, .blockEnd] rounds r.skip
          else some (emptyScalar, r)
        let (value, r) ←
          if r.faces [.value] then optional .inMapping [.key, .value, .blockEnd] rounds r.skip
          else some (emptyScalar, r)
        let (entries, r) ← blockMapping rounds r
        some (⟨key, value⟩ :: entries, r)
      else if r.faces [.blockEnd] then some ([], r.skip)
      else none

/-- A single entry that stands in a flow sequence like an item. -/
def singleEntry : Nat → Reader → Option (Node × Reader)
  | 0, _ => none
  | rounds + 1, r => do
      let (key, r) ← optional .flow [.value, .flowEntry, .flowSequenceEnd] rounds r
      let (value, r) ←
        if r.faces [.value] then optional .flow [.flowEntry, .flowSequenceEnd] rounds r.skip
        else some (emptyScalar, r)
      some (.mapping none [⟨key, value⟩], r)

/-- The items of a flow sequence up to its end; all but the first follow a comma. -/
def flowSequence : Nat → Bool → Reader → Option (List Node × Reader)
  | 0, _, _ => none
  | rounds + 1, first, r =>
      if r.faces [.flowSequenceEnd] then some ([], r.skip)
      else if first || r.faces [.flowEntry] then
        let r := if first then r else r.skip
        if r.faces [.flowSequenceEnd] then some ([], r.skip)
        else do
          let (item, r) ← if r.faces [.key] then singleEntry rounds r.skip else node .flow rounds r
          let (items, r) ← flowSequence rounds false r
          some (item :: items, r)
      else none

/-- The entries of a flow mapping up to its end; all but the first follow a comma. -/
def flowMapping : Nat → Bool → Reader → Option (List NodeEntry × Reader)
  | 0, _, _ => none
  | rounds + 1, first, r =>
      if r.faces [.flowMappingEnd] then some ([], r.skip)
      else if first || r.faces [.flowEntry] then
        let r := if first then r else r.skip
        if r.faces [.flowMappingEnd] then some ([], r.skip)
        else do
          let marked := r.faces [.key, .value]
          let (key, r) ←
            if r.faces [.key] then optional .flow [.value, .flowEntry, .flowMappingEnd] rounds r.skip
            else if r.faces [.value] then some (emptyScalar, r)
            else node .flow rounds r
          let (value, r) ←
            if marked && r.faces [.value] then optional .flow [.flowEntry, .flowMappingEnd] rounds r.skip
            else some (emptyScalar, r)
          let (entries, r) ← flowMapping rounds false r
          some (⟨key, value⟩ :: entries, r)
      else none
end

/-- A document that has to be the last. A mark may end it. -/
def only (read : Option (Node × Reader)) : Option (Option Node) :=
  match read with
  | some (node, r) => if r.tokens = [] || r.tokens = [.documentEnd] then some (some node) else none
  | none => none

def content (said : Directives) (tokens : List Token) : Option (Node × Reader) := do
  node .block (4 * tokens.length + 4) ⟨← tokens.mapM said.token?, []⟩

/-- The document that a start mark opens, after any directives. -/
def marked (said : Directives) : List Token → Option (Option Node)
  | .directive line :: rest => do marked (← said.add line) rest
  | .documentStart :: rest =>
      let r : Reader := ⟨rest, []⟩
      if rest = [] || r.faces [.documentStart, .documentEnd] then only (some (emptyScalar, r))
      else only (content said rest)
  | _ => none

end Reader

/-- The root of the only document, if there is a document at all. -/
def Node.ofTokens? (tokens : List Token) : Option (Option Node) :=
  let said : Directives := ⟨false, []⟩
  match tokens with
  | [] => some none
  | .directive _ :: _ | .documentStart :: _ => Reader.marked said tokens
  | _ => Reader.only (Reader.content said tokens)

end TensorNetwork.Yaml
