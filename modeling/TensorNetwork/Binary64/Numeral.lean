import TensorNetwork.Binary64.Basic

/-! Decimal numerals with a fraction and an exponent, read to the nearest
number. -/
namespace TensorNetwork.Binary64

def isDecimalDigit (c : Char) : Bool := '0' ≤ c && c ≤ '9'

def naturalOf (digits : List Char) : Nat := Nat.ofDigitChars 10 digits 0

def natural? (digits : List Char) : Option Nat :=
  if digits ≠ [] && digits.all isDecimalDigit then some (naturalOf digits) else none

/-- The exponent after its mark: an optional sign and at least one digit. -/
def exponent? : List Char → Option Int
  | '-' :: digits => (natural? digits).map fun n => -(n : Int)
  | '+' :: digits => (natural? digits).map Int.ofNat
  | digits => (natural? digits).map Int.ofNat

/-- An unsigned numeral: digits with an optional point among them or around
them, then optionally an exponent. -/
def unsigned? (negative : Bool) (text : List Char) : Option Binary64 :=
  let whole := text.takeWhile isDecimalDigit
  let afterWhole := text.dropWhile isDecimalDigit
  let pointed := match afterWhole with
    | '.' :: rest => (rest.takeWhile isDecimalDigit, rest.dropWhile isDecimalDigit)
    | rest => ([], rest)
  let fraction := pointed.1
  if whole = [] && fraction = [] then none else
  let digits := naturalOf (whole ++ fraction)
  let scale : Int := -(fraction.length : Int)
  match pointed.2 with
  | [] => some (ofDecimal negative digits scale)
  | mark :: rest =>
      if mark = 'e' || mark = 'E' then
        (exponent? rest).map fun exponent => ofDecimal negative digits (scale + exponent)
      else none

/-- A numeral with an optional sign, or the name of an infinity or of what is
no number. -/
def ofText? (text : String) : Option Binary64 :=
  match text.toList with
  | '-' :: rest => if rest = "inf".toList then some (.infinite true) else unsigned? true rest
  | '+' :: rest => if rest = "inf".toList then some (.infinite false) else unsigned? false rest
  | rest =>
      if rest = "inf".toList then some (.infinite false)
      else if rest = "nan".toList then some .notANumber
      else unsigned? false rest

end TensorNetwork.Binary64
