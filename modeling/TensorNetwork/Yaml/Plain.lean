import TensorNetwork.Binary64.Numeral
import TensorNetwork.Datum
import TensorNetwork.Error

/-! What plain scalars stand for: null, truth values, integers in four notations,
numbers with a fraction or an exponent, or else their own text. Underscores may
be put among digits. -/
namespace TensorNetwork.Yaml

def isDigit (c : Char) : Bool := '0' ≤ c && c ≤ '9'

def isDigitOrGap (c : Char) : Bool := isDigit c || c = '_'

def isOctal (c : Char) : Bool := '0' ≤ c && c ≤ '7'

def isBinary (c : Char) : Bool := c = '0' || c = '1'

def digitOf (c : Char) : Nat :=
  if isDigit c then c.toNat - '0'.toNat
  else if 'a' ≤ c && c ≤ 'f' then c.toNat - 'a'.toNat + 10
  else c.toNat - 'A'.toNat + 10

def isHex (c : Char) : Bool := isDigit c || ('a' ≤ c && c ≤ 'f') || ('A' ≤ c && c ≤ 'F')

/-- A text without its sign, and whether that was a minus. -/
def unsigned : List Char → Bool × List Char
  | '-' :: rest => (true, rest)
  | '+' :: rest => (false, rest)
  | text => (false, text)

def withoutGaps (text : List Char) : List Char := text.filter (· ≠ '_')

/-- A run of at least one character of a class, underscores included. -/
def isRun (p : Char → Bool) (text : List Char) : Bool :=
  text ≠ [] && text.all fun c => p c || c = '_'

/-- The base of an unsigned integer and its digits. -/
def integerParts? : List Char → Option (Nat × List Char)
  | '0' :: 'b' :: digits => if isRun isBinary digits then some (2, digits) else none
  | '0' :: 'o' :: digits => if isRun isOctal digits then some (8, digits) else none
  | '0' :: 'x' :: digits => if isRun isHex digits then some (16, digits) else none
  | digits => if isRun isDigit digits then some (10, digits) else none

/-- Integers start with a sign or a digit. -/
def startsNumber (text : List Char) : Bool :=
  match text with
  | c :: _ => c = '-' || c = '+' || isDigit c
  | [] => false

def integerDatum (negative : Bool) (base : Nat) (digits : List Char) : Except Error Datum :=
  match withoutGaps digits with
  | [] => .error (.notAnInteger base (Text.quoted ""))
  | digits =>
      let n := digits.foldl (fun n c => base * n + digitOf c) 0
      .ok (.int (if negative then -(n : Int) else n))

/-- An exponent: its mark, a sign, which may be left out unless it is needed,
and digits. -/
def isExponent (signNeeded : Bool) : List Char → Bool
  | mark :: rest =>
      (mark = 'e' || mark = 'E') &&
        match rest with
        | sign :: digits =>
            if sign = '-' || sign = '+' then digits ≠ [] && digits.all isDigit
            else !signNeeded && rest.all isDigit
        | [] => false
  | [] => false

/-- Whether an unsigned text is a number with a fraction or an exponent. -/
def isFractional (text : List Char) : Bool :=
  match text with
  | '.' :: rest =>
      let tail := rest.dropWhile isDigitOrGap
      rest.takeWhile isDigitOrGap ≠ [] && (tail = [] || isExponent true tail)
  | c :: rest =>
      isDigit c &&
        match rest.dropWhile isDigitOrGap with
        | '.' :: fraction =>
            let tail := fraction.dropWhile isDigitOrGap
            tail = [] || isExponent false tail
        | tail => isExponent false tail
  | [] => false

def infinities : List String := [".inf", ".Inf", ".INF"]

def notNumbers : List String := [".nan", ".NaN", ".NAN"]

def floatDatum (negative : Bool) (text : List Char) : Except Error Datum :=
  match Binary64.unsigned? negative (withoutGaps text) with
  | some x => .ok (.float x)
  | none => .error (.notANumber (Text.quoted (String.ofList (withoutGaps text))))

def nulls : List String := ["", "~", "null", "Null", "NULL"]

def truths : List String := ["true", "True", "TRUE"]

def falsehoods : List String := ["false", "False", "FALSE"]

/-- What a plain scalar stands for. A lone equals sign stands for nothing here. -/
def plainDatum (text : List Char) : Except Error Datum :=
  let written := String.ofList text
  let (negative, size) := unsigned text
  if nulls.contains written then .ok .null
  else if truths.contains written then .ok (.bool true)
  else if falsehoods.contains written then .ok (.bool false)
  else if written = "=" then .error .malformedDocument
  else if infinities.contains (String.ofList size) then .ok (.float (.infinite negative))
  else if notNumbers.contains written then .ok (.float .notANumber)
  else if isFractional size then floatDatum negative size
  else
    match (if startsNumber text then integerParts? size else none) with
    | some (base, digits) => integerDatum negative base digits
    | none => .ok (.text written)

end TensorNetwork.Yaml
