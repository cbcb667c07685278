/-! Integers read from text. Blanks may stand around the numeral and a sign in
front of it; single underscores may stand between digits; the digits of every
script with decimal digits count. -/
namespace TensorNetwork.Text

/-- Code points of the blanks that may stand around a numeral. -/
def blankRanges : List (Nat × Nat) :=
  [(0x9, 0xd), (0x20, 0x20), (0x85, 0x85), (0xa0, 0xa0), (0x1680, 0x1680), (0x2000, 0x200a),
    (0x2028, 0x2029), (0x202f, 0x202f), (0x205f, 0x205f), (0x3000, 0x3000)]

def isBlank (c : Char) : Bool :=
  blankRanges.any fun range => range.1 ≤ c.toNat && c.toNat ≤ range.2

/-- Code points of the digit zero in each script; the other nine digits follow it. -/
def zeroDigits : List Nat :=
  [0x30, 0x660, 0x6f0, 0x7c0, 0x966, 0x9e6, 0xa66, 0xae6, 0xb66, 0xbe6, 0xc66, 0xce6, 0xd66, 0xde6,
    0xe50, 0xed0, 0xf20, 0x1040, 0x1090, 0x17e0, 0x1810, 0x1946, 0x19d0, 0x1a80, 0x1a90, 0x1b50,
    0x1bb0, 0x1c40, 0x1c50, 0xa620, 0xa8d0, 0xa900, 0xa9d0, 0xa9f0, 0xaa50, 0xabf0, 0xff10, 0x104a0,
    0x10d30, 0x11066, 0x110f0, 0x11136, 0x111d0, 0x112f0, 0x11450, 0x114d0, 0x11650, 0x116c0,
    0x11730, 0x118e0, 0x11950, 0x11c50, 0x11d50, 0x11da0, 0x16a60, 0x16ac0, 0x16b50, 0x1d7ce,
    0x1d7d8, 0x1d7e2, 0x1d7ec, 0x1d7f6, 0x1e140, 0x1e2f0, 0x1e950, 0x1fbf0]

def digitValue? (c : Char) : Option Nat :=
  (zeroDigits.find? fun first => first ≤ c.toNat && c.toNat < first + 10).map (c.toNat - ·)

/-- The number written by the digits after those that made `sofar`. An
underscore has to be followed by a digit. -/
def moreDigits? (sofar : Nat) : List Char → Option Nat
  | [] => some sofar
  | ['_'] => none
  | '_' :: c :: rest =>
      match digitValue? c with
      | some d => moreDigits? (10 * sofar + d) rest
      | none => none
  | c :: rest =>
      match digitValue? c with
      | some d => moreDigits? (10 * sofar + d) rest
      | none => none

def natural? : List Char → Option Nat
  | [] => none
  | c :: rest =>
      match digitValue? c with
      | some d => moreDigits? d rest
      | none => none

def trimmed (text : List Char) : List Char :=
  ((text.dropWhile isBlank).reverse.dropWhile isBlank).reverse

def integer? (text : List Char) : Option Int :=
  match trimmed text with
  | '-' :: digits => (natural? digits).map fun n => -(n : Int)
  | '+' :: digits => (natural? digits).map Int.ofNat
  | digits => (natural? digits).map Int.ofNat

end TensorNetwork.Text
