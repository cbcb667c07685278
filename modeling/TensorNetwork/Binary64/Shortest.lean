import TensorNetwork.Binary64.Basic

/-! The shortest decimal text of a floating-point number: the fewest digits
that are nearer to it than to any other number, the nearest such digits, and
positional notation for magnitudes from a ten-thousandth up to ten to the
sixteenth. -/
namespace TensorNetwork.Binary64

/-- Compares `a * 2 ^ p` with `b * 10 ^ q` exactly. -/
def compareScaled (a : Nat) (p : Int) (b : Nat) (q : Int) : Ordering :=
  let left := a * twoTo p.toNat * tenTo (-q).toNat
  let right := b * tenTo q.toNat * twoTo (-p).toNat
  compare left right

/-- The whole part of `a * 2 ^ p / 10 ^ q`. -/
def scaledQuotient (a : Nat) (p q : Int) : Nat :=
  (a * twoTo p.toNat * tenTo (-q).toNat) / (tenTo q.toNat * twoTo (-p).toNat)

/-- Least exponent of ten, from `low` up, whose power exceeds `a * 2 ^ p`. -/
def magnitudeAbove (a : Nat) (p : Int) (low : Int) : Nat → Int
  | 0 => low
  | steps + 1 =>
      if compareScaled a p 1 low == .lt then low else magnitudeAbove a p (low + 1) steps

/-- The numbers that round to `mantissa * 2 ^ exponent` lie between these two
bounds, counted in quarters of the last place. -/
def roundingBounds (mantissa : Nat) (exponent : Int) : Nat × Nat :=
  let below := if mantissa = twoTo 52 && leastExponent < exponent then 1 else 2
  (4 * mantissa - below, 4 * mantissa + 2)

/-- Whether `digits * 10 ^ scale` rounds to the number; the bounds themselves
belong to even mantissas. -/
def roundsBack (mantissa : Nat) (exponent : Int) (digits : Nat) (scale : Int) : Bool :=
  let bounds := roundingBounds mantissa exponent
  let low := compareScaled bounds.1 (exponent - 2) digits scale
  let high := compareScaled bounds.2 (exponent - 2) digits scale
  if mantissa % 2 = 0 then low != .gt && high != .lt else low == .lt && high == .gt

/-- The better of the two neighbours of the number on the decimal grid with the
given scale, if one of them rounds back. -/
def onGrid? (mantissa : Nat) (exponent scale : Int) : Option Nat :=
  let floor := scaledQuotient mantissa exponent scale
  match roundsBack mantissa exponent floor scale, roundsBack mantissa exponent (floor + 1) scale with
  | false, false => none
  | true, false => some floor
  | false, true => some (floor + 1)
  | true, true =>
      match compareScaled (2 * mantissa) exponent (2 * floor + 1) scale with
      | .lt => some floor
      | .gt => some (floor + 1)
      | .eq => some (if floor % 2 = 0 then floor else floor + 1)

def shortestFrom (mantissa : Nat) (exponent : Int) (top : Int) : Nat → Nat → Nat × Int
  | 0, places => (scaledQuotient mantissa exponent (top - places), top - places)
  | left + 1, places =>
      match onGrid? mantissa exponent (top - places) with
      | some digits => (digits, top - places)
      | none => shortestFrom mantissa exponent top left (places + 1)

/-- Digits and scale of the shortest decimal that reads back as the number. -/
def shortest (mantissa : Nat) (exponent : Int) : Nat × Int :=
  shortestFrom mantissa exponent (magnitudeAbove mantissa exponent (-330) 660) 17 1

/-- Which exponents of ten, for a leading point, are written positionally. -/
def isPositional (point : Int) : Bool := -4 < point && point ≤ 16

def exponentText (exponent : Int) : String :=
  let size := toString exponent.natAbs
  (if exponent < 0 then "e-" else "e+") ++ (if exponent.natAbs < 10 then "0" ++ size else size)

def zeros (count : Nat) : String := String.ofList (List.replicate count '0')

/-- Lays out digits whose point stands `point` places after the first of them. -/
def layOut (digits : List Char) (point : Int) : String :=
  let all := String.ofList digits
  if isPositional point then
    if point ≤ 0 then "0." ++ zeros (-point).toNat ++ all
    else if digits.length ≤ point.toNat then all ++ zeros (point.toNat - digits.length) ++ ".0"
    else String.ofList (digits.take point.toNat) ++ "." ++ String.ofList (digits.drop point.toNat)
  else
    let tail := if digits.length ≤ 1 then "" else "." ++ String.ofList (digits.drop 1)
    String.ofList (digits.take 1) ++ tail ++ exponentText (point - 1)

def sizeText (mantissa : Nat) (exponent : Int) : String :=
  if mantissa = 0 then "0.0"
  else
    let found := shortest mantissa exponent
    let digits := Nat.toDigits 10 found.1
    let kept := (digits.reverse.dropWhile (· = '0')).reverse
    layOut kept (digits.length + found.2)

def text : Binary64 → String
  | .finite negative mantissa exponent => (if negative then "-" else "") ++ sizeText mantissa exponent
  | .infinite negative => if negative then "-inf" else "inf"
  | .notANumber => "nan"

end TensorNetwork.Binary64
