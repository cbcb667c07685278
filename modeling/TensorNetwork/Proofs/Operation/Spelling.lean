import Mathlib.Data.List.Chain
import Mathlib.Data.List.TakeWhile
import TensorNetwork.Operation.Token

/-! How tokens are written. A text spells tokens if it holds their characters in
order, with blanks before, between and after them. Several sequences of tokens
may be spelled by one text, since digits can be cut anywhere; the scanner finds
the one that never lets digits follow digits. -/
namespace TensorNetwork.Token

def spelling : Token → List Char
  | .tensor digits => 'T' :: digits
  | .int digits => digits
  | .keyword word => word.spelling
  | .equals => ['=']
  | .comma => [',']
  | .arrow => ['-', '>']
  | .openRound => ['(']
  | .closeRound => [')']
  | .openSquare => ['[']
  | .closeSquare => [']']

/-- At least one digit, and nothing else. -/
def IsNumeral (digits : List Char) : Prop := digits ≠ [] ∧ ∀ c ∈ digits, isDigit c = true

/-- A token that can be written: its number is a numeral. -/
def Writable : Token → Prop
  | .tensor digits => IsNumeral digits
  | .int digits => IsNumeral digits
  | _ => True

inductive Spells : List Token → List Char → Prop where
  | done : Spells [] []
  | blank {c : Char} {tokens : List Token} {text : List Char} :
      isSpace c = true → Spells tokens text → Spells tokens (c :: text)
  | token {token : Token} {tokens : List Token} {text : List Char} :
      token.Writable → Spells tokens text → Spells (token :: tokens) (token.spelling ++ text)

def startsWithDigit : Token → Bool
  | .int _ => true
  | _ => false

def endsWithDigit : Token → Bool
  | .tensor _ => true
  | .int _ => true
  | _ => false

/-- Digits of a token never stand next to digits of another. -/
def Apart (a b : Token) : Prop := a.endsWithDigit = true → b.startsWithDigit = false

theorem isDigit_of_isSpace {c : Char} (blank : isSpace c = true) : isDigit c = false := by
  simp only [isSpace, Bool.or_eq_true, decide_eq_true_eq] at blank
  rcases blank with rfl | rfl <;> decide

/-- The first character of a token is no blank, and a digit only if the token is a
number. -/
theorem spelling_eq_cons {token : Token} (writable : token.Writable) :
    ∃ c rest, token.spelling = c :: rest ∧ isSpace c = false ∧ isDigit c = token.startsWithDigit := by
  cases token with
  | tensor digits => exact ⟨'T', digits, rfl, rfl, rfl⟩
  | int digits =>
    obtain ⟨nonempty, all⟩ := writable
    obtain ⟨c, rest, rfl⟩ := List.exists_cons_of_ne_nil nonempty
    have digit := all c List.mem_cons_self
    refine ⟨c, rest, rfl, ?_, digit⟩
    rw [← Bool.not_eq_true]
    intro blank
    rw [isDigit_of_isSpace blank] at digit
    cases digit
  | keyword word => cases word <;> exact ⟨_, _, rfl, rfl, rfl⟩
  | _ => exact ⟨_, _, rfl, rfl, rfl⟩

/-- A text starts with a digit only if its first token does. -/
theorem Spells.head_isDigit {tokens : List Token} {text : List Char} (spells : Spells tokens text)
    (first : ∀ token ∈ tokens.head?, token.startsWithDigit = false) :
    ∀ c ∈ text.head?, isDigit c = false := by
  intro c head
  cases spells with
  | done => cases head
  | blank space _ =>
    cases head
    exact isDigit_of_isSpace space
  | token writable _ =>
    obtain ⟨d, rest, spelled, -, digit⟩ := spelling_eq_cons writable
    rw [spelled] at head
    cases head
    rw [digit]
    exact first _ rfl

/-- The digits of a numeral are those that a text starts with, if no other digit
follows them. -/
theorem span_numeral {digits rest : List Char} (numeral : IsNumeral digits)
    (boundary : ∀ c ∈ rest.head?, isDigit c = false) :
    (digits ++ rest).takeWhile isDigit = digits ∧ (digits ++ rest).dropWhile isDigit = rest := by
  rw [List.takeWhile_append_of_pos numeral.2, List.dropWhile_append_of_pos numeral.2]
  cases rest with
  | nil => simp
  | cons c tail => simp [boundary c rfl]

theorem takeWhile_isNumeral {text : List Char} (nonempty : text.takeWhile isDigit ≠ []) :
    IsNumeral (text.takeWhile isDigit) :=
  ⟨nonempty, fun _ member => List.mem_takeWhile_imp member⟩

theorem digits?_numeral {digits rest : List Char} (numeral : IsNumeral digits)
    (boundary : ∀ c ∈ rest.head?, isDigit c = false) : digits? (digits ++ rest) = some (digits, rest) := by
  obtain ⟨taken, dropped⟩ := span_numeral numeral boundary
  rw [digits?, taken, dropped]
  obtain ⟨c, tail, rfl⟩ := List.exists_cons_of_ne_nil numeral.1
  rfl

theorem digits?_eq_some {text digits rest : List Char} (read : digits? text = some (digits, rest)) :
    IsNumeral digits ∧ text = digits ++ rest := by
  unfold digits? at read
  split at read
  · cases read
  · rename_i nonempty
    cases read
    exact ⟨takeWhile_isNumeral nonempty, List.takeWhile_append_dropWhile.symm⟩

theorem mark?_eq_some {c : Char} {token : Token} (mark : mark? c = some token) :
    token.Writable ∧ token.spelling = [c] := by
  unfold mark? at mark
  split at mark <;> cases mark <;> exact ⟨trivial, rfl⟩

theorem mark?_digit {c : Char} (digit : isDigit c = true) : mark? c = none := by
  unfold mark?
  split
  case h_7 => rfl
  all_goals cases digit

theorem next?_digit {c : Char} (digit : isDigit c = true) (rest : List Char) :
    next? (c :: rest) = some (.int (c :: rest.takeWhile isDigit), rest.dropWhile isDigit) := by
  unfold next?
  split
  · rename_i empty
    cases empty
  · rename_i same
    cases same
    cases digit
  · rename_i same
    cases same
    cases digit
  · rename_i same
    cases same
    simp [mark?_digit digit, digit]

/-- A token is read back from its characters unless further digits follow it. -/
theorem next?_spelling {token : Token} {rest : List Char} (writable : token.Writable)
    (boundary : token.endsWithDigit = true → ∀ c ∈ rest.head?, isDigit c = false) :
    next? (token.spelling ++ rest) = some (token, rest) := by
  cases token with
  | tensor digits => simp [spelling, next?, digits?_numeral writable (boundary rfl)]
  | int digits =>
    obtain ⟨taken, dropped⟩ := span_numeral writable (boundary rfl)
    obtain ⟨c, tail, rfl⟩ := List.exists_cons_of_ne_nil writable.1
    have digit : isDigit c = true := writable.2 c List.mem_cons_self
    simp only [List.cons_append, List.takeWhile_cons, List.dropWhile_cons, digit, if_true,
      List.cons.injEq, true_and] at taken dropped
    rw [spelling, List.cons_append, next?_digit digit, taken, dropped]
  | keyword word => cases word <;> rfl
  | _ => rfl

theorem keyword_read? {text rest : List Char} {word : Keyword} (read : Keyword.read? text = some (word, rest)) :
    text = word.spelling ++ rest := by
  obtain ⟨found, starts, same⟩ := Option.map_eq_some_iff.mp read
  cases same
  have start : word.spelling <+: text := by simpa using List.find?_some starts
  obtain ⟨tail, rfl⟩ := start
  simp

/-- What is read as a token is how the token is written. -/
theorem next?_eq_some {text rest : List Char} {token : Token} (read : next? text = some (token, rest)) :
    token.Writable ∧ text = token.spelling ++ rest := by
  unfold next? at read
  split at read
  · cases read
  · obtain ⟨⟨digits, after⟩, found, same⟩ := Option.map_eq_some_iff.mp read
    cases same
    obtain ⟨numeral, rfl⟩ := digits?_eq_some found
    exact ⟨numeral, rfl⟩
  · cases read
    exact ⟨trivial, rfl⟩
  · rename_i c tail _ _
    split at read
    · rename_i mark
      cases read
      obtain ⟨writable, spelled⟩ := mark?_eq_some mark
      exact ⟨writable, by rw [spelled]; rfl⟩
    · split at read
      · rename_i digit
        cases read
        have whole : c :: tail.takeWhile isDigit = (c :: tail).takeWhile isDigit := by simp [digit]
        refine ⟨?_, ?_⟩
        · rw [Writable, whole]
          exact takeWhile_isNumeral (by simp [digit])
        · rw [spelling, List.cons_append, List.takeWhile_append_dropWhile]
      · obtain ⟨⟨word, after⟩, found, same⟩ := Option.map_eq_some_iff.mp read
        cases same
        exact ⟨trivial, keyword_read? found⟩

theorem Spells.writable {tokens : List Token} {text : List Char} (spells : Spells tokens text) :
    ∀ token ∈ tokens, token.Writable := by
  induction spells with
  | done => exact fun token member => nomatch member
  | blank _ _ ih => exact ih
  | token writable _ ih => exact List.forall_mem_cons.mpr ⟨writable, ih⟩

theorem spells_of_scan? {text : List Char} {tokens : List Token} (scanned : scan? text = some tokens) :
    Spells tokens text := by
  fun_induction scan? text generalizing tokens with
  | case1 =>
    cases scanned
    exact .done
  | case2 c rest blank ih => exact .blank blank (ih scanned)
  | case3 c rest visible read => cases scanned
  | case4 c rest visible token after read ih =>
    obtain ⟨others, later, same⟩ := Option.map_eq_some_iff.mp scanned
    cases same
    obtain ⟨writable, spelled⟩ := next?_eq_some read
    rw [spelled]
    exact .token writable (ih later)

/-- Tokens that keep their digits apart are scanned as they were meant. -/
theorem Spells.scan? {tokens : List Token} {text : List Char} (spells : Spells tokens text)
    (apart : tokens.IsChain Apart) : Token.scan? text = some tokens := by
  induction spells with
  | done => simp [Token.scan?]
  | blank space _ ih =>
    rw [Token.scan?, if_pos space]
    exact ih apart
  | @token token tokens text writable spells ih =>
    obtain ⟨first, later⟩ := List.isChain_cons.mp apart
    obtain ⟨c, rest, spelled, visible, -⟩ := spelling_eq_cons writable
    have read : next? (token.spelling ++ text) = some (token, text) :=
      next?_spelling writable fun ends => spells.head_isDigit fun next head => first next head ends
    rw [spelled, List.cons_append] at read ⊢
    rw [Token.scan?, if_neg (by simp [visible])]
    split
    · rename_i none
      rw [read] at none
      cases none
    · rename_i other after again
      rw [read] at again
      cases again
      rw [ih later]
      rfl

end TensorNetwork.Token
