/-! Tokens of written operations. Blanks and tabs may stand between tokens and
nowhere inside one; a number takes all digits that follow. -/
namespace TensorNetwork

inductive Keyword where
  | einsum
  | transpose
  | qr
  | rank
  | left
  deriving DecidableEq

inductive Token where
  /-- A tensor with the digits of its number as written. -/
  | tensor (digits : List Char)
  | int (digits : List Char)
  | keyword (word : Keyword)
  | equals
  | comma
  | arrow
  | openRound
  | closeRound
  | openSquare
  | closeSquare
  deriving DecidableEq

namespace Keyword

def spelling : Keyword → List Char
  | .einsum => ['e', 'i', 'n', 's', 'u', 'm']
  | .transpose => ['t', 'r', 'a', 'n', 's', 'p', 'o', 's', 'e']
  | .qr => ['q', 'r']
  | .rank => ['r', 'a', 'n', 'k']
  | .left => ['l', 'e', 'f', 't']

def all : List Keyword := [.einsum, .transpose, .qr, .rank, .left]

/-- The keyword that a text starts with, and what follows it. -/
def read? (text : List Char) : Option (Keyword × List Char) :=
  (all.find? fun word => word.spelling.isPrefixOf text).map fun word =>
    (word, text.drop word.spelling.length)

end Keyword

namespace Token

def isDigit (c : Char) : Bool := '0' ≤ c && c ≤ '9'

def isSpace (c : Char) : Bool := c = ' ' || c = '\t'

/-- The punctuation mark that a single character is. -/
def mark? : Char → Option Token
  | '=' => some .equals
  | ',' => some .comma
  | '(' => some .openRound
  | ')' => some .closeRound
  | '[' => some .openSquare
  | ']' => some .closeSquare
  | _ => none

/-- The digits that a text starts with, at least one, and what follows them. -/
def digits? (text : List Char) : Option (List Char × List Char) :=
  match text.takeWhile isDigit with
  | [] => none
  | digits => some (digits, text.dropWhile isDigit)

/-- The token that a text starts with, and what follows it. -/
def next? : List Char → Option (Token × List Char)
  | [] => none
  | 'T' :: rest => (digits? rest).map fun (digits, rest) => (.tensor digits, rest)
  | '-' :: '>' :: rest => some (.arrow, rest)
  | c :: rest =>
      match mark? c with
      | some token => some (token, rest)
      | none =>
          if isDigit c then some (.int (c :: rest.takeWhile isDigit), rest.dropWhile isDigit)
          else (Keyword.read? (c :: rest)).map fun (word, rest) => (.keyword word, rest)

theorem length_dropWhile_le (p : Char → Bool) (text : List Char) :
    (text.dropWhile p).length ≤ text.length :=
  (List.dropWhile_suffix p).sublist.length_le

theorem next?_shorter {text rest : List Char} {token : Token} (read : next? text = some (token, rest)) :
    rest.length < text.length := by
  unfold next? at read
  split at read
  · simp at read
  · rename_i tail
    simp only [digits?] at read
    split at read
    · simp at read
    · simp only [Option.map_some, Option.some.injEq, Prod.mk.injEq] at read
      have := length_dropWhile_le isDigit tail
      simp only [List.length_cons, ← read.2]
      omega
  · simp only [Option.some.injEq, Prod.mk.injEq] at read
    simp only [List.length_cons, ← read.2]
    omega
  · rename_i c tail _ _
    split at read
    · simp only [Option.some.injEq, Prod.mk.injEq] at read
      simp [← read.2]
    · split at read
      · simp only [Option.some.injEq, Prod.mk.injEq] at read
        have := length_dropWhile_le isDigit tail
        simp only [List.length_cons, ← read.2]
        omega
      · simp only [Keyword.read?, Option.map_map, Option.map_eq_some_iff] at read
        obtain ⟨word, _, same⟩ := read
        simp only [Function.comp_apply, Prod.mk.injEq] at same
        rw [← same.2]
        cases word <;>
          simp only [Keyword.spelling, List.length_drop, List.length_cons, List.length_nil] <;> omega

/-- All tokens of a text, if it consists of tokens and blanks. -/
def scan? (text : List Char) : Option (List Token) :=
  match text with
  | [] => some []
  | c :: rest =>
      if isSpace c then scan? rest
      else
        match _read : next? (c :: rest) with
        | none => none
        | some (token, after) => (scan? after).map (token :: ·)
termination_by text.length
decreasing_by
  · simp
  · exact next?_shorter _read

end Token
end TensorNetwork
