import Mathlib.Data.Nat.Digits.Defs
import TensorNetwork.Proofs.Operation.Spelling
import TensorNetwork.Text.Integer

/-! Decimal numerals. Reading a run of digits gives the number that it denotes in
base ten, whatever zeros it starts with; writing a natural number gives a numeral
that denotes it. -/
namespace TensorNetwork

/-- The number that digits denote. -/
def decimalValue (digits : List Char) : Nat := Nat.ofDigitChars 10 digits 0

namespace Text
open Token (isDigit IsNumeral)

theorem isDigit_iff {c : Char} : isDigit c = true ↔ 48 ≤ c.toNat ∧ c.toNat ≤ 57 := by
  simp only [isDigit, Bool.and_eq_true, decide_eq_true_eq]
  rfl

theorem digitValue?_digit {c : Char} (digit : isDigit c = true) : digitValue? c = some (c.toNat - 48) := by
  obtain ⟨low, high⟩ := isDigit_iff.mp digit
  have below : c.toNat < 48 + 10 := by omega
  simp [digitValue?, zeroDigits, low, below]

theorem isBlank_digit {c : Char} (digit : isDigit c = true) : isBlank c = false := by
  obtain ⟨low, high⟩ := isDigit_iff.mp digit
  simp only [isBlank, blankRanges, List.any_eq_false, Bool.and_eq_true, decide_eq_true_eq]
  intro range member
  simp only [List.mem_cons, List.not_mem_nil, or_false] at member
  rcases member with rfl | rfl | rfl | rfl | rfl | rfl | rfl | rfl | rfl | rfl <;> omega

theorem moreDigits?_digits {digits : List Char} (all : ∀ c ∈ digits, isDigit c = true) (sofar : Nat) :
    moreDigits? sofar digits = some (Nat.ofDigitChars 10 digits sofar) := by
  induction digits generalizing sofar with
  | nil => rfl
  | cons c rest ih =>
    have digit := all c List.mem_cons_self
    have plain : c ≠ '_' := by
      rintro rfl
      cases digit
    rw [moreDigits?.eq_4 _ _ _ (fun h _ => plain h) (fun _ _ h _ => plain h), digitValue?_digit digit]
    exact ih (fun d member => all d (List.mem_cons_of_mem _ member)) _

theorem natural?_numeral {digits : List Char} (numeral : IsNumeral digits) :
    natural? digits = some (decimalValue digits) := by
  obtain ⟨c, rest, rfl⟩ := List.exists_cons_of_ne_nil numeral.1
  have digit := numeral.2 c List.mem_cons_self
  rw [natural?, digitValue?_digit digit]
  simp only [decimalValue, Nat.ofDigitChars_cons, Nat.mul_zero, Nat.zero_add]
  exact moreDigits?_digits (fun d member => numeral.2 d (List.mem_cons_of_mem _ member)) _

theorem dropWhile_isBlank {text : List Char} (visible : ∀ c ∈ text, isBlank c = false) :
    text.dropWhile isBlank = text := by
  cases text with
  | nil => rfl
  | cons c rest => simp [visible c List.mem_cons_self]

theorem trimmed_numeral {digits : List Char} (numeral : IsNumeral digits) : trimmed digits = digits := by
  have visible : ∀ c ∈ digits, isBlank c = false := fun c member => isBlank_digit (numeral.2 c member)
  rw [trimmed, dropWhile_isBlank visible, dropWhile_isBlank, List.reverse_reverse]
  exact fun c member => visible c (List.mem_reverse.mp member)

theorem integer?_numeral {digits : List Char} (numeral : IsNumeral digits) :
    integer? digits = some (decimalValue digits : Int) := by
  have first : ∀ c rest, digits = c :: rest → isDigit c = true := by
    rintro c rest rfl
    exact numeral.2 c List.mem_cons_self
  rw [integer?, trimmed_numeral numeral]
  split
  · cases first _ _ rfl
  · cases first _ _ rfl
  · rw [natural?_numeral numeral]
    rfl

theorem isNumeral_toDigits (n : Nat) : IsNumeral (Nat.toDigits 10 n) := by
  refine ⟨Nat.toDigits_ne_nil, fun c member => ?_⟩
  have digit := Nat.isDigit_of_mem_toDigits (by decide) (by decide) member
  simpa [Char.isDigit, isDigit, Char.le_def] using digit

theorem decimalValue_toDigits (n : Nat) : decimalValue (Nat.toDigits 10 n) = n :=
  Nat.ofDigitChars_toDigits (by decide) (by decide)

end Text
end TensorNetwork
