import TensorNetwork.Yaml.Scalar

/-! Tokens of a document. Indentation becomes explicit: a token opens each block
collection and another closes it. A key is recognized by the colon after it, so
its mark is put in front of it afterwards; a key stands on one line and has at
most 1024 characters. -/
namespace TensorNetwork.Yaml

/-- What a line says about the document that follows. -/
inductive Directive where
  | version (major : Nat)
  /-- A handle of tags, and the text that it stands for. -/
  | handle (name stem : List Char)
  | other
  deriving DecidableEq

namespace Directive

def isWordChar (c : Char) : Bool := c.isAlphanum || c = '-' || c = '_'

def isStemChar (c : Char) : Bool := isWordChar c || ";/?:@&=+$,.!~*'()[]%#".toList.contains c

/-- A handle is a mark alone or a word between two. -/
def isHandle : List Char → Bool
  | ['!'] => true
  | '!' :: rest => rest.getLast? = some '!' && rest.dropLast.all isWordChar
  | _ => false

def afterBlanks (line : List Char) : List Char := line.dropWhile (· = ' ')

/-- Nothing but a comment is left of a line. -/
def isOver (line : List Char) : Bool :=
  line = [] || line.head? = some ' ' && (afterBlanks line = [] || (afterBlanks line).head? = some '#')

def version? (line : List Char) : Option Directive :=
  let (major, rest) := line.span Char.isDigit
  match rest with
  | '.' :: rest =>
      let (minor, rest) := rest.span Char.isDigit
      if major ≠ [] && minor ≠ [] && isOver rest then
        some (.version (major.foldl (fun n c => 10 * n + (c.toNat - '0'.toNat)) 0))
      else none
  | _ => none

def handle? (line : List Char) : Option Directive :=
  let (name, rest) := line.span (· ≠ ' ')
  let (stem, rest) := (afterBlanks rest).span (· ≠ ' ')
  if isHandle name && stem ≠ [] && stem.all isStemChar && isOver rest then some (.handle name stem)
  else none

/-- Reads a line after its first mark. Directives with other names say nothing here. -/
def ofLine? (line : List Char) : Option Directive :=
  let (name, rest) := line.span isWordChar
  if name = [] || !(rest = [] || rest.head? = some ' ') then none
  else if name = ['Y', 'A', 'M', 'L'] then version? (afterBlanks rest)
  else if name = ['T', 'A', 'G'] then handle? (afterBlanks rest)
  else some .other

end Directive

inductive Token where
  | directive (said : Directive)
  | documentStart
  | documentEnd
  | blockSequenceStart
  | blockMappingStart
  | blockEnd
  | flowSequenceStart
  | flowSequenceEnd
  | flowMappingStart
  | flowMappingEnd
  | blockEntry
  | flowEntry
  | key
  | value
  | reference (name : List Char)
  | anchor (name : List Char)
  | tag (name : List Char)
  | scalar (plain : Bool) (text : List Char)
  deriving DecidableEq

/-- A token that turns out to be a key if a colon follows. -/
structure PossibleKey where
  /-- How many tokens stand before it. -/
  position : Nat
  /-- Only a key can stand there. -/
  required : Bool
  line : Nat
  column : Nat
  offset : Nat

structure Scanner where
  rest : List Char
  line : Nat
  column : Nat
  offset : Nat
  tokens : Array Token
  /-- The open brackets of flow collections, innermost first. -/
  flow : List Char
  /-- The indentation of the innermost block collection; minus one outside all. -/
  indent : Int
  outer : List Int
  keyAllowed : Bool
  /-- Possible keys by the number of open brackets around them. -/
  keys : List (Nat × PossibleKey)

namespace Scanner

def start (text : List Char) : Scanner :=
  ⟨text, 0, 0, 0, #[], [], -1, [], true, []⟩

def inFlow (s : Scanner) : Bool := s.flow ≠ []

def push (s : Scanner) (token : Token) : Scanner := { s with tokens := s.tokens.push token }

/-- Moves on to a later part of the text. -/
def moveTo (s : Scanner) (rest : List Char) : Scanner :=
  let count := s.rest.length - rest.length
  let passed := s.rest.take count
  let breaks := passed.count '\n'
  let column :=
    if breaks = 0 then s.column + count else (passed.reverse.takeWhile (· ≠ '\n')).length
  { s with rest, column, line := s.line + breaks, offset := s.offset + count }

/-- What follows blanks, comments and line ends, and whether there was a line end. -/
def nextText (inComment broken : Bool) : List Char → Bool × List Char
  | [] => (broken, [])
  | c :: rest =>
      if c = '\n' then nextText false true rest
      else if inComment then nextText true broken rest
      else if c = ' ' then nextText false broken rest
      else if c = '#' then nextText true broken rest
      else (broken, c :: rest)

def skipGap (s : Scanner) : Scanner :=
  let (broken, rest) := nextText false false s.rest
  let moved := s.moveTo rest
  if broken && !s.inFlow then { moved with keyAllowed := true } else moved

/-- Drops possible keys that can be none any more. -/
def dropStaleKeys (s : Scanner) : Option Scanner :=
  let isStale := fun key : PossibleKey => key.line ≠ s.line || 1024 < s.offset - key.offset
  if s.keys.any fun (_, key) => isStale key && key.required then none
  else some { s with keys := s.keys.filter fun (_, key) => !isStale key }

def level (s : Scanner) : Nat := s.flow.length

/-- Gives up the possible key at the present level. -/
def dropKey (s : Scanner) : Option Scanner :=
  if s.keys.any fun (level, key) => level = s.level && key.required then none
  else some { s with keys := s.keys.filter fun (level, _) => level ≠ s.level }

/-- Notes that a key may start here. -/
def noteKey (s : Scanner) : Option Scanner :=
  if s.keyAllowed then do
    let dropped ← s.dropKey
    let required := !s.inFlow && s.indent = s.column
    let key : PossibleKey := ⟨s.tokens.size, required, s.line, s.column, s.offset⟩
    some { dropped with keys := (s.level, key) :: dropped.keys }
  else some s

/-- Closes block collections that are indented further than a column. -/
def closeBlocks (column : Int) (tokens : Array Token) (indent : Int) :
    List Int → Array Token × Int × List Int
  | [] => (tokens, indent, [])
  | outer :: rest =>
      if column < indent then closeBlocks column (tokens.push .blockEnd) outer rest
      else (tokens, indent, outer :: rest)

def unwind (s : Scanner) (column : Int) : Scanner :=
  if s.inFlow then s
  else
    let (tokens, indent, outer) := closeBlocks column s.tokens s.indent s.outer
    { s with tokens, indent, outer }

/-- Opens a block collection at a column, at some place among the tokens, unless
the innermost one is there already. -/
def openBlock (s : Scanner) (column position : Nat) (token : Token) : Scanner :=
  if s.indent < column then
    { s with
      outer := s.indent :: s.outer
      indent := column
      tokens := s.tokens.insertIdxIfInBounds position token }
  else s

/-- The token that stands for the next `count` characters. -/
def take (s : Scanner) (count : Nat) (token : Token) : Scanner :=
  (s.moveTo (s.rest.drop count)).push token

def documentMark (s : Scanner) (token : Token) : Option Scanner := do
  let s ← (s.unwind (-1)).dropKey
  some ({ s with keyAllowed := false }.take 3 token)

def directive (s : Scanner) : Option Scanner := do
  let s ← (s.unwind (-1)).dropKey
  let s := { s with keyAllowed := false }
  let (line, rest) := s.rest.span (· ≠ '\n')
  some ((s.moveTo rest).push (.directive (← Directive.ofLine? (line.drop 1))))

def openFlow (s : Scanner) (bracket : Char) (token : Token) : Option Scanner := do
  let s ← s.noteKey
  some ({ s with flow := bracket :: s.flow, keyAllowed := true }.take 1 token)

def closeFlow (s : Scanner) (token : Token) : Option Scanner := do
  let s ← s.dropKey
  some ({ s with flow := s.flow.drop 1, keyAllowed := false }.take 1 token)

def flowEntry (s : Scanner) : Option Scanner := do
  let s ← { s with keyAllowed := true }.dropKey
  some (s.take 1 .flowEntry)

def blockEntry (s : Scanner) : Option Scanner := do
  if s.inFlow then
    let s ← { s with keyAllowed := true }.dropKey
    some (s.take 1 .blockEntry)
  else if s.keyAllowed then
    let s ← (s.openBlock s.column s.tokens.size .blockSequenceStart).dropKey
    some ({ s with keyAllowed := true }.take 1 .blockEntry)
  else none

def explicitKey (s : Scanner) : Option Scanner := do
  if s.inFlow then
    let s ← { s with keyAllowed := false }.dropKey
    some (s.take 1 .key)
  else if s.keyAllowed then
    let s ← (s.openBlock s.column s.tokens.size .blockMappingStart).dropKey
    some ({ s with keyAllowed := true }.take 1 .key)
  else none

/-- A colon makes the possible key before it a key. -/
def value (s : Scanner) : Option Scanner := do
  match s.keys.find? fun (level, _) => level = s.level with
  | some (_, key) =>
      let s := { s with
        keys := s.keys.filter fun (level, _) => level ≠ s.level
        tokens := s.tokens.insertIdxIfInBounds key.position .key
        keyAllowed := false }
      let s := if s.inFlow then s else s.openBlock key.column key.position .blockMappingStart
      some (s.take 1 .value)
  | none =>
      if s.inFlow then
        let s ← { s with keyAllowed := false }.dropKey
        some (s.take 1 .value)
      else if s.keyAllowed then
        let s ← (s.openBlock s.column s.tokens.size .blockMappingStart).dropKey
        some ({ s with keyAllowed := true }.take 1 .value)
      else none

def isNameChar (c : Char) : Bool :=
  !isFlowMark c && (('\x21' ≤ c && c ≤ '\x7e') || ('\u00a0' ≤ c && c ≠ '\ufeff'))

/-- The name after the mark of an anchor or alias. -/
def name (s : Scanner) (token : List Char → Token) : Option Scanner := do
  let s ← s.noteKey
  let text := s.rest.drop 1
  let name := text.takeWhile isNameChar
  if name = [] then none
  else some (({ s with keyAllowed := false }.moveTo (text.dropWhile isNameChar)).push (token name))

def isTagChar (c : Char) : Bool := c ≠ ' ' && c ≠ '\t' && c ≠ '\n'

def tag (s : Scanner) : Option Scanner := do
  let s ← s.noteKey
  some (({ s with keyAllowed := false }.moveTo (s.rest.dropWhile isTagChar)).push
    (.tag (s.rest.takeWhile isTagChar)))

def blockScalar (s : Scanner) (folded : Bool) : Option Scanner := do
  let s ← { s with keyAllowed := true }.dropKey
  let (header, lines) ← blockHeader? folded (s.rest.drop 1)
  let (text, rest) := block header s.indent lines
  some ((s.moveTo rest).push (.scalar false text))

def quotedScalar (s : Scanner) (double : Bool) : Option Scanner := do
  let s ← s.noteKey
  let (text, rest) ← quoted? double (s.rest.drop 1)
  some (({ s with keyAllowed := false }.moveTo rest).push (.scalar false text))

def plainScalar (s : Scanner) : Option Scanner := do
  let s ← s.noteKey
  let read := plain s.inFlow (s.indent + 1).toNat s.rest
  some (({ s with keyAllowed := read.newLine }.moveTo read.rest).push (.scalar true read.text))

/-- Characters that start no plain scalar by themselves. -/
def indicators : List Char := "\t -?:,[]\x7b\x7d#&*!|>'\"%@\x60\u2028\u2029".toList

def startsPlain (inFlow : Bool) (c : Char) (rest : List Char) : Bool :=
  if !indicators.contains c then true
  else if c = '-' then !atGap rest
  else if c = ':' && inFlow then rest.head? ≠ some ' ' && rest.head? ≠ some '\t'
  else !inFlow && !atGap rest && (c = '?' || c = ':')

/-- Whether a colon separates a key from its value. -/
def startsValue (s : Scanner) (rest : List Char) : Bool :=
  match s.flow with
  | [] => atGap rest
  | bracket :: _ =>
      if bracket = '[' || s.tokens.back? = some .value then atGap rest else true

/-- Reads the token at the next character. -/
def token (s : Scanner) (c : Char) (rest : List Char) : Option Scanner :=
  if c = '%' && s.column = 0 then s.directive
  else if s.column = 0 && atSeparator s.rest then
    s.documentMark (if c = '-' then .documentStart else .documentEnd)
  else if c = '[' then s.openFlow c .flowSequenceStart
  else if c = '\x7b' then s.openFlow c .flowMappingStart
  else if c = ']' then s.closeFlow .flowSequenceEnd
  else if c = '\x7d' then s.closeFlow .flowMappingEnd
  else if c = ',' then s.flowEntry
  else if c = '-' && atGap rest then s.blockEntry
  else if c = '?' && (s.inFlow || atGap rest) then s.explicitKey
  else if c = ':' && s.startsValue rest then s.value
  else if c = '*' then s.name .reference
  else if c = '&' then s.name .anchor
  else if c = '!' then s.tag
  else if (c = '|' || c = '>') && !s.inFlow then s.blockScalar (c = '>')
  else if c = '\x27' then s.quotedScalar false
  else if c = '"' then s.quotedScalar true
  else if startsPlain s.inFlow c rest then s.plainScalar
  else none

/-- Reads all tokens. Each of them takes a character at least, so as many rounds
as there are characters suffice. -/
def run : Nat → Scanner → Option (List Token)
  | 0, _ => none
  | rounds + 1, s => do
      let s ← s.skipGap.dropStaleKeys
      match s.rest with
      | [] =>
          let s ← (s.unwind (-1)).dropKey
          some s.tokens.toList
      | c :: rest => run rounds (← (s.unwind s.column).token c rest)

end Scanner

/-- Line ends in their plain form. -/
def plainLineEnds : List Char → List Char
  | [] => []
  | '\r' :: '\n' :: rest => '\n' :: plainLineEnds rest
  | c :: rest => (if c = '\r' || c = '\u0085' then '\n' else c) :: plainLineEnds rest

/-- Whether a document may hold a character. -/
def isPrintable (c : Char) : Bool :=
  c = '\t' || c = '\n' || c = '\r' || c = '\u0085' || ('\x20' ≤ c && c ≤ '\x7e') ||
    ('\u00a0' ≤ c && c ≠ '\ufffe' && c ≠ '\uffff')

/-- A byte order mark at the start of a text says nothing. -/
def withoutMark : List Char → List Char
  | '\ufeff' :: rest => rest
  | text => text

/-- The tokens of a text. -/
def tokens? (text : String) : Option (List Token) :=
  if text.toList.all isPrintable then
    let chars := plainLineEnds (withoutMark text.toList)
    (Scanner.start chars).run (chars.length + 1)
  else none

end TensorNetwork.Yaml
