import TensorNetwork.Extent.Basic
import TensorNetwork.Ordered
import TensorNetwork.Text.Listing

/-! What is seen of an extent: the key by which extents are ordered, the size of
its expression, and its text. Integers come before powers of symbols, these
before products of several powers, then come powers of sums, and powers of
smallest members last; powers of one base are ordered by exponent and then by
coefficient. -/
namespace TensorNetwork

structure Profile where
  key : List Int
  nodes : Nat
  text : String
  /-- Whether it is written as a sum, which inside a product stands in parentheses. -/
  isSum : Bool
  deriving DecidableEq

/-- Each run of equal neighbours once, with its length. -/
def runLengths {α : Type} [DecidableEq α] : List α → List (α × Nat)
  | [] => []
  | a :: rest =>
      match runLengths rest with
      | (b, n) :: runs => if a = b then (b, n + 1) :: runs else (a, 1) :: (b, n) :: runs
      | [] => [(a, 1)]

namespace Profile

/-- A name in keys: its code points and an end mark below all of them, so that
a name precedes those it begins. -/
def nameKey (name : String) : List Int :=
  name.toList.map (fun c => (c.toNat : Int)) ++ [-1]

/-- The first difference decides, and a list comes before those that it begins. -/
def keyLe (a b : List Int) : Bool := !b.lex a

def le (a b : Profile) : Bool := keyLe a.key b.key

/-- The text inside a product or a power. -/
def enclosed (p : Profile) : String := if p.isSum then "(" ++ p.text ++ ")" else p.text

/-- The size of several expressions together. -/
def totalNodes : List Profile → Nat
  | [] => 0
  | p :: rest => p.nodes + totalNodes rest

/-- The power of a base. -/
def power (base : Profile) (exponent : Nat) : Profile :=
  if exponent = 1 then { base with key := base.key ++ [1] }
  else ⟨base.key ++ [(exponent : Int)], base.nodes + 2, base.enclosed ++ "**" ++ toString exponent, false⟩

def coefficientText (c : Int) : String :=
  if c = 1 then "" else if c = -1 then "-" else toString c ++ "*"

/-- A coefficient times factors, equal ones standing together. -/
def product (c : Int) (factors : List Profile) : Profile :=
  match (runLengths factors).map fun (base, exponent) => power base exponent with
  | [] => ⟨[1, c], 1, toString c, false⟩
  | [only] =>
      if c = 1 then { only with key := only.key ++ [1] }
      else ⟨only.key ++ [c], only.nodes + 2, coefficientText c ++ only.enclosed, false⟩
  | powers =>
      ⟨[3, (powers.length : Int)] ++ powers.flatMap (fun p => p.key ++ [1]) ++ [c],
        totalNodes powers + (if c = 1 then 1 else 2),
        coefficientText c ++ "*".intercalate (powers.map enclosed), false⟩

/-- An integer above zero is written before what is subtracted from it; other sums are
written from the symbol on. -/
def subtracts (form : Linear) : Bool := form.slope < 0 && 0 < form.offset

def sumText (form : Linear) : String :=
  if subtracts form then toString form.offset ++ " - " ++ coefficientText (-form.slope) ++ form.name
  else
    coefficientText form.slope ++ form.name ++ (if form.offset < 0 then " - " else " + ") ++
      toString form.offset.natAbs

/-- The terms of a sum are compared in the order in which they are written. -/
def sumKey (form : Linear) : List Int :=
  let symbol := 2 :: (nameKey form.name ++ [1, form.slope])
  if subtracts form then [4, 2, 1, form.offset] ++ symbol else [4, 2] ++ symbol ++ [1, form.offset]

def sum (form : Linear) : Profile :=
  ⟨sumKey form, if form.slope = 1 then 3 else 5, sumText form, true⟩

/-- The smallest of some members. They are compared as they stand and written in
the order of their keys. -/
def least (members : List Profile) : Profile :=
  ⟨[5, (members.length : Int)] ++ members.flatMap Profile.key,
    1 + totalNodes members,
    "Min(" ++ Text.commaSeparated ((Ordered.sort le members).map Profile.text) ++ ")", false⟩

end Profile

mutual
def Extent.profile : Extent → Profile
  | ⟨c, factors⟩ => Profile.product c (Factor.profiles factors)

/-- The profile of a factor as the base of a power. -/
def Factor.profile : Factor → Profile
  | .symbol name => ⟨2 :: Profile.nameKey name, 1, name, false⟩
  | .linear form => Profile.sum form
  | .least members => Profile.least (Extent.profiles members)

def Extent.profiles : List Extent → List Profile
  | [] => []
  | a :: rest => a.profile :: Extent.profiles rest

def Factor.profiles : List Factor → List Profile
  | [] => []
  | f :: rest => f.profile :: Factor.profiles rest
end

/-- The extent as it is written. -/
def Extent.text (a : Extent) : String := a.profile.text

end TensorNetwork
