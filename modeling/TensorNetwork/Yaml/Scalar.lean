/-! The texts of scalars. Every reader takes the characters that follow the
opening of a scalar and gives its text with the characters that are left. Line
ends are already plain newlines. A line end inside a scalar is folded: one
becomes a blank, and of several all but the first stay. -/
namespace TensorNetwork.Yaml

/-- Whether a text ends here or goes on with white space. -/
def atGap : List Char → Bool
  | [] => true
  | c :: _ => c = ' ' || c = '\t' || c = '\n'

/-- Whether a line starts with a mark between documents. -/
def atSeparator : List Char → Bool
  | '-' :: '-' :: '-' :: rest => atGap rest
  | '.' :: '.' :: '.' :: rest => atGap rest
  | _ => false

/-- What a number of line ends is folded to. -/
def foldedBreaks : Nat → List Char
  | 0 => []
  | 1 => [' ']
  | n + 2 => List.replicate (n + 1) '\n'

/-! Quoted scalars are read as pieces, which are folded afterwards. -/

inductive Piece where
  | glyph (c : Char)
  | space (c : Char)
  | lineEnd
  /-- An escaped line end, which joins two lines without a blank. -/
  | joint

def hexDigit? (c : Char) : Option Nat :=
  if '0' ≤ c && c ≤ '9' then some (c.toNat - '0'.toNat)
  else if 'a' ≤ c && c ≤ 'f' then some (c.toNat - 'a'.toNat + 10)
  else if 'A' ≤ c && c ≤ 'F' then some (c.toNat - 'A'.toNat + 10)
  else none

/-- The character with a code point in hexadecimal digits. -/
def codePoint? (digits : List Char) : Option Char := do
  let values ← digits.mapM hexDigit?
  let n := values.foldl (fun n d => 16 * n + d) 0
  if n.isValidChar then some (Char.ofNat n) else none

def simpleEscape? : Char → Option Char
  | '0' => some '\x00'
  | 'a' => some '\x07'
  | 'b' => some '\x08'
  | 't' => some '\t'
  | '\t' => some '\t'
  | 'n' => some '\n'
  | 'v' => some '\x0b'
  | 'f' => some '\x0c'
  | 'r' => some '\r'
  | 'e' => some '\x1b'
  | ' ' => some ' '
  | '"' => some '"'
  | '/' => some '/'
  | '\\' => some '\\'
  | 'N' => some '\u0085'
  | '_' => some '\u00a0'
  | 'L' => some '\u2028'
  | 'P' => some '\u2029'
  | _ => none

/-- How many digits follow the mark of an escape by code point. -/
def escapeWidth? : Char → Option Nat
  | 'x' => some 2
  | 'u' => some 4
  | 'U' => some 8
  | _ => none

/-- The piece after a backslash. -/
def escape? : List Char → Option (Piece × List Char)
  | [] => none
  | '\n' :: rest => if atSeparator rest then none else some (.joint, rest)
  | c :: rest =>
      match simpleEscape? c with
      | some meant => some (.glyph meant, rest)
      | none =>
          match escapeWidth? c with
          | none => none
          | some width =>
              if rest.length < width then none
              else (codePoint? (rest.take width)).map fun meant => (.glyph meant, rest.drop width)

theorem escape?_shorter {text rest : List Char} {piece : Piece}
    (read : escape? text = some (piece, rest)) : rest.length < text.length := by
  unfold escape? at read
  split at read
  · simp at read
  · split at read <;> simp_all
  · split at read
    · simp_all
    · split at read
      · simp at read
      · split at read
        · simp at read
        · simp only [Option.map_eq_some_iff, Prod.mk.injEq] at read
          obtain ⟨_, _, _, same⟩ := read
          simp only [← same, List.length_drop, List.length_cons]
          omega

/-- The pieces up to the closing quote. Backslashes escape in double quotes; in
single quotes a doubled quote stands for one. -/
def pieces? (double : Bool) (text : List Char) : Option (List Piece × List Char) :=
  match text with
  | [] => none
  | c :: rest =>
      if double && c = '\\' then
        match _read : escape? rest with
        | none => none
        | some (piece, after) => (pieces? double after).map fun (ps, rest) => (piece :: ps, rest)
      else if double && c = '"' then some ([], rest)
      else if !double && c = '\x27' then
        match rest with
        | '\x27' :: after => (pieces? double after).map fun (ps, rest) => (.glyph '\x27' :: ps, rest)
        | _ => some ([], rest)
      else if c = '\n' then
        if atSeparator rest then none
        else (pieces? double rest).map fun (ps, rest) => (.lineEnd :: ps, rest)
      else
        let piece := if c = ' ' || c = '\t' then Piece.space c else .glyph c
        (pieces? double rest).map fun (ps, rest) => (piece :: ps, rest)
termination_by text.length
decreasing_by
  · have := escape?_shorter _read
    simp only [List.length_cons]
    omega
  all_goals simp only [List.length_cons]; omega

/-- The text of a gap between glyphs: its blanks, or what its line ends are
folded to. -/
def gapText (spaces : List Char) (breaks : Nat) (joined : Bool) : List Char :=
  if joined then List.replicate breaks '\n'
  else if breaks = 0 then spaces.reverse
  else foldedBreaks breaks

/-- Folds the pieces; the gap so far is given by its blanks, latest first, its
line ends, and whether it follows an escaped line end. -/
def foldPieces (spaces : List Char) (breaks : Nat) (joined : Bool) : List Piece → List Char
  | [] => gapText spaces breaks joined
  | .glyph c :: rest => gapText spaces breaks joined ++ c :: foldPieces [] 0 false rest
  | .space c :: rest => foldPieces (c :: spaces) breaks joined rest
  | .lineEnd :: rest => foldPieces spaces (breaks + 1) joined rest
  | .joint :: rest => gapText spaces breaks joined ++ foldPieces [] 0 true rest

/-- The text of a quoted scalar. -/
def quoted? (double : Bool) (text : List Char) : Option (List Char × List Char) :=
  (pieces? double text).map fun (ps, rest) => (foldPieces [] 0 false ps, rest)

/-! Plain scalars end before a comment, before a colon that ends a key and, in
flow collections, before punctuation. They go on over lines that are indented
enough. -/

def isFlowMark (c : Char) : Bool :=
  c = ',' || c = '[' || c = ']' || c = '\x7b' || c = '\x7d'

/-- Whether a plain scalar stops before a character. -/
def endsWord (inFlow : Bool) (c : Char) (rest : List Char) : Bool :=
  c = ' ' || c = '\t' || c = '\n' || (c = ':' && atGap rest) || (inFlow && isFlowMark c)

/-- The characters of a plain scalar up to the next gap. -/
def word (inFlow : Bool) : List Char → List Char × List Char
  | [] => ([], [])
  | c :: rest =>
      if endsWord inFlow c rest then ([], c :: rest)
      else
        let (taken, left) := word inFlow rest
        (c :: taken, left)

/-- What stands between two words of a plain scalar. -/
structure Gap where
  blanks : Nat
  breaks : Nat
  /-- Blanks at the start of the last line, where there are several lines. -/
  column : Nat
  rest : List Char
  /-- The gap ended at a mark between documents. -/
  separated : Bool

/-- The lines of a gap after its first line end. -/
def gapLines (breaks column : Nat) : List Char → Gap
  | [] => ⟨0, breaks, column, [], false⟩
  | c :: rest =>
      if c = ' ' then gapLines breaks (column + 1) rest
      else if c = '\n' then
        if atSeparator rest then ⟨0, breaks + 1, 0, rest, true⟩ else gapLines (breaks + 1) 0 rest
      else ⟨0, breaks, column, c :: rest, false⟩

def gap (text : List Char) : Gap :=
  let blanks := (text.takeWhile (· = ' ')).length
  match text.dropWhile (· = ' ') with
  | '\n' :: rest => if atSeparator rest then ⟨blanks, 1, 0, rest, true⟩ else gapLines 1 0 rest
  | rest => ⟨blanks, 0, 0, rest, false⟩

def Gap.text (g : Gap) : List Char :=
  if g.breaks = 0 then List.replicate g.blanks ' ' else foldedBreaks g.breaks

theorem word_shorter (inFlow : Bool) (text : List Char) :
    (word inFlow text).1.length + (word inFlow text).2.length = text.length := by
  induction text with
  | nil => rfl
  | cons c rest ih =>
    unfold word
    split
    · simp
    · simp only [List.length_cons]
      omega

theorem gapLines_shorter (breaks column : Nat) (text : List Char) :
    (gapLines breaks column text).rest.length ≤ text.length := by
  induction text generalizing breaks column with
  | nil => simp [gapLines]
  | cons c rest ih =>
    unfold gapLines
    split
    · exact Nat.le_succ_of_le (ih _ _)
    · split
      · split
        · simp
        · exact Nat.le_succ_of_le (ih _ _)
      · simp

theorem gap_shorter (text : List Char) : (gap text).rest.length ≤ text.length := by
  have bound : (text.dropWhile (· = ' ')).length ≤ text.length :=
    (List.dropWhile_suffix _).sublist.length_le
  unfold gap
  split
  · rename_i rest same
    rw [same] at bound
    simp only [List.length_cons] at bound
    split
    · simp only
      omega
    · exact Nat.le_trans (gapLines_shorter 1 0 rest) (by omega)
  · exact bound

/-- A plain scalar: its text, what is left, and whether it ended after a line end. -/
structure PlainText where
  text : List Char
  rest : List Char
  newLine : Bool

/-- The words of a plain scalar. Continuation lines start at `indent` or
further, except in flow collections. -/
def plain (inFlow : Bool) (indent : Nat) (text : List Char) : PlainText :=
  let read := word inFlow text
  if _some : read.1 = [] then ⟨[], text, false⟩
  else
    let g := gap read.2
    let newLine := 0 < g.breaks
    if g.separated || (g.blanks = 0 && g.breaks = 0) || g.rest.head? = some '#' ||
        (!inFlow && newLine && g.column < indent) then
      ⟨read.1, g.rest, newLine⟩
    else
      let more := plain inFlow indent g.rest
      if more.text = [] then ⟨read.1, g.rest, newLine⟩
      else ⟨read.1 ++ g.text ++ more.text, more.rest, more.newLine⟩
termination_by text.length
decreasing_by
  have lengths := word_shorter inFlow text
  have bound := gap_shorter (word inFlow text).2
  have : 0 < (word inFlow text).1.length := List.length_pos_iff.mpr _some
  omega

/-! Block scalars consist of whole lines at one indentation. -/

/-- What becomes of the line ends at the end of a block scalar. -/
inductive Chomping where
  | clip
  | strip
  | keep
  deriving DecidableEq

structure BlockHeader where
  folded : Bool
  chomping : Chomping
  /-- The indentation relative to the surroundings, if stated. -/
  increment : Option Nat

def chomping? : Char → Option Chomping
  | '+' => some .keep
  | '-' => some .strip
  | _ => none

def increment? (c : Char) : Option Nat :=
  if '1' ≤ c && c ≤ '9' then some (c.toNat - '0'.toNat) else none

/-- The marks after the opening of a block scalar, in either order. -/
def blockMarks (text : List Char) : (Chomping × Option Nat) × List Char :=
  match text with
  | [] => ((.clip, none), [])
  | c :: rest =>
      match chomping? c, increment? c with
      | some chomping, _ =>
          match rest with
          | d :: after =>
              match increment? d with
              | some n => ((chomping, some n), after)
              | none => ((chomping, none), rest)
          | [] => ((chomping, none), [])
      | none, some n =>
          match rest with
          | d :: after =>
              match chomping? d with
              | some chomping => ((chomping, some n), after)
              | none => ((.clip, some n), rest)
          | [] => ((.clip, some n), [])
      | none, none => ((.clip, none), c :: rest)

/-- Drops blanks, a comment and the line end after a header. -/
def afterHeader? (text : List Char) : Option (List Char) :=
  match text.dropWhile (· = ' ') with
  | [] => some []
  | '\n' :: rest => some rest
  | '#' :: rest => some ((rest.dropWhile (· ≠ '\n')).drop 1)
  | _ => none

/-- The header of a block scalar and the lines after it. -/
def blockHeader? (folded : Bool) (text : List Char) : Option (BlockHeader × List Char) :=
  let (marks, rest) := blockMarks text
  match rest with
  | [] => some (⟨folded, marks.1, marks.2⟩, [])
  | c :: _ =>
      if c = ' ' || c = '\n' then
        (afterHeader? rest).map fun lines => (⟨folded, marks.1, marks.2⟩, lines)
      else none

/-- The widest indentation among leading blank lines and the first other line. -/
def leadingIndent (widest column : Nat) : List Char → Nat
  | ' ' :: rest => leadingIndent (max widest (column + 1)) (column + 1) rest
  | '\n' :: rest => leadingIndent widest 0 rest
  | _ => widest

/-- Blank lines: how many, the indentation of the next line, counted up to
`indent`, and what follows that indentation. -/
def blankLines (indent column breaks : Nat) : List Char → Nat × Nat × List Char
  | [] => (breaks, column, [])
  | c :: rest =>
      if c = ' ' && column < indent then blankLines indent (column + 1) breaks rest
      else if c = '\n' then blankLines indent 0 (breaks + 1) rest
      else (breaks, column, c :: rest)

theorem blankLines_shorter (indent column breaks : Nat) (text : List Char) :
    (blankLines indent column breaks text).2.2.length ≤ text.length := by
  induction text generalizing column breaks with
  | nil => simp [blankLines]
  | cons c rest ih =>
    unfold blankLines
    split
    · exact Nat.le_succ_of_le (ih _ _)
    · split
      · exact Nat.le_succ_of_le (ih _ _)
      · simp

def startsBlank : List Char → Bool
  | c :: _ => c = ' ' || c = '\t'
  | [] => false

/-- Lines of a block scalar: their text, the line end of the last of them, how
many blank lines follow, and what is left. -/
structure BlockLines where
  text : List Char
  lineEnd : List Char
  blanks : Nat
  rest : List Char

/-- What joins a line with the next: folding replaces a single line end between
lines that do not start with a blank. -/
def joinLines (folded : Bool) (before after : List Char) (blanks : Nat) : List Char :=
  if folded && !startsBlank before && !startsBlank after then if blanks = 0 then [' '] else []
  else ['\n']

/-- The lines from here on. The text stands at the indentation of the scalar. -/
def blockLines (folded : Bool) (indent : Nat) (text : List Char) : BlockLines :=
  let line := text.takeWhile (· ≠ '\n')
  match _after : text.dropWhile (· ≠ '\n') with
  | [] => ⟨line, [], 0, []⟩
  | _ :: lines =>
      let next := blankLines indent 0 0 lines
      let blanks := next.1
      let rest := next.2.2
      if next.2.1 ≠ indent || rest = [] || (indent = 0 && atSeparator rest) then
        ⟨line, ['\n'], blanks, rest⟩
      else
        let more := blockLines folded indent rest
        { more with
          text := line ++ joinLines folded text rest blanks ++ List.replicate blanks '\n' ++ more.text }
termination_by text.length
decreasing_by
  have bound : (text.dropWhile (· ≠ '\n')).length ≤ text.length :=
    (List.dropWhile_suffix _).sublist.length_le
  rw [_after] at bound
  have := blankLines_shorter indent 0 0 lines
  simp only [List.length_cons] at bound
  omega

/-- A block scalar inside a collection with some indentation: its text and what
is left. -/
def block (header : BlockHeader) (surrounding : Int) (lines : List Char) : List Char × List Char :=
  let least := (surrounding + 1).toNat
  let indent := match header.increment with
    | none => max least (leadingIndent 0 0 lines)
    | some n => max least 1 + n - 1
  let (blanks, column, rest) := blankLines indent 0 0 lines
  let body : BlockLines :=
    if column ≠ indent || rest = [] then ⟨[], [], blanks, rest⟩
    else
      let read := blockLines header.folded indent rest
      { read with text := List.replicate blanks '\n' ++ read.text }
  let ending := match header.chomping with
    | .clip => body.lineEnd
    | .strip => []
    | .keep => body.lineEnd ++ List.replicate body.blanks '\n'
  (body.text ++ ending, body.rest)

end TensorNetwork.Yaml
