/-! Floating-point numbers of 64 bits as exact mathematical values. A finite
number is a signed mantissa times a power of two; nothing here depends on
machine arithmetic. -/
namespace TensorNetwork

inductive Binary64 where
  | finite (negative : Bool) (mantissa : Nat) (exponent : Int)
  | infinite (negative : Bool)
  | notANumber
  deriving DecidableEq, Inhabited

namespace Binary64

def twoTo (n : Nat) : Nat := Nat.pow 2 n

def tenTo (n : Nat) : Nat := Nat.pow 10 n

/-- Exponent of the smallest positive number. -/
def leastExponent : Int := -1074

/-- Exponent of the largest finite number. -/
def greatestExponent : Int := 971

/-- The quotient rounded to the nearest integer, a half to the even one. -/
def roundedQuotient (numerator denominator : Nat) : Nat :=
  let quotient := numerator / denominator
  let twice := 2 * (numerator % denominator)
  if denominator < twice || (twice = denominator && quotient % 2 = 1) then quotient + 1 else quotient

/-- `numerator / denominator` divided by two to the power `exponent`, rounded. -/
def mantissaAt (numerator denominator : Nat) (exponent : Int) : Nat :=
  if 0 ≤ exponent then roundedQuotient numerator (denominator * twoTo exponent.toNat)
  else roundedQuotient (numerator * twoTo (-exponent).toNat) denominator

/-- The number nearest to a quotient of positive integers. Its mantissa has 53
bits unless the exponent is the least one. -/
def ofQuotient (negative : Bool) (numerator denominator : Nat) : Binary64 :=
  let magnitude : Int := (Nat.log2 numerator : Int) - Nat.log2 denominator
  let narrow := max (magnitude - 53) leastExponent
  let exponent := if twoTo 53 ≤ mantissaAt numerator denominator narrow then narrow + 1 else narrow
  let mantissa := mantissaAt numerator denominator exponent
  let carried := mantissa = twoTo 53
  let exponent := if carried then exponent + 1 else exponent
  let mantissa := if carried then twoTo 52 else mantissa
  if greatestExponent < exponent then .infinite negative else .finite negative mantissa exponent

/-- The number nearest to `digits` times ten to the power `scale`. Powers far
outside the range are decided by the count of digits alone. -/
def ofDecimal (negative : Bool) (digits : Nat) (scale : Int) : Binary64 :=
  let places : Int := (Nat.toDigits 10 digits).length + scale
  if digits = 0 || places < -330 then .finite negative 0 leastExponent
  else if 320 < places then .infinite negative
  else if 0 ≤ scale then ofQuotient negative (digits * tenTo scale.toNat) 1
  else ofQuotient negative digits (tenTo (-scale).toNat)

/-- The integer part, cut toward zero; infinities and what is no number have none. -/
def integerPart? : Binary64 → Option Int
  | .finite negative mantissa exponent =>
      let size :=
        if 0 ≤ exponent then mantissa * twoTo exponent.toNat else mantissa / twoTo (-exponent).toNat
      some (if negative then -(size : Int) else size)
  | _ => none

/-- Whether a number is exactly the integer `n`. -/
def isInteger (x : Binary64) (n : Int) : Bool :=
  match x with
  | .finite negative mantissa exponent =>
      let signed : Int := if negative then -(mantissa : Int) else mantissa
      if 0 ≤ exponent then signed * twoTo exponent.toNat = n else signed = n * twoTo (-exponent).toNat
  | _ => false

/-- Numerical equality: the two zeros are equal and what is no number differs from itself. -/
def equal : Binary64 → Binary64 → Bool
  | .finite negative mantissa exponent, .finite negative' mantissa' exponent' =>
      (mantissa = 0 && mantissa' = 0) ||
        (negative = negative' && mantissa = mantissa' && exponent = exponent')
  | .infinite negative, .infinite negative' => negative = negative'
  | _, _ => false

end Binary64
end TensorNetwork
