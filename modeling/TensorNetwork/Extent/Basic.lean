/-! Symbolic extents of tensor axes. An extent is an integer coefficient times
factors: symbols, sums of a multiple of a symbol and an integer, and smallest
members of lists of extents. A factor stands as often as its exponent says; an
extent without factors is an integer. -/
namespace TensorNetwork

/-- The sum of a multiple of a symbol and an integer, neither of them zero. -/
structure Linear where
  slope : Int
  name : String
  offset : Int
  slope_ne : slope ≠ 0
  offset_ne : offset ≠ 0
  deriving DecidableEq

/-- Both terms of a sum times an integer. -/
def Linear.scale (form : Linear) (c : Int) (nonzero : c ≠ 0) : Linear :=
  ⟨c * form.slope, form.name, c * form.offset, Int.mul_ne_zero nonzero form.slope_ne,
    Int.mul_ne_zero nonzero form.offset_ne⟩

mutual
structure Extent where
  coefficient : Int
  factors : List Factor

inductive Factor where
  | symbol (name : String)
  | linear (form : Linear)
  | least (members : List Extent)
end

mutual
def Extent.decEq : (a b : Extent) → Decidable (a = b)
  | ⟨c, fs⟩, ⟨d, gs⟩ =>
      match Int.decEq c d, Factor.decEqAll fs gs with
      | isTrue coefficients, isTrue factors => isTrue (by rw [coefficients, factors])
      | isFalse apart, _ => isFalse (by intro same; cases same; exact apart rfl)
      | _, isFalse apart => isFalse (by intro same; cases same; exact apart rfl)
termination_by structural a => a

def Factor.decEq : (a b : Factor) → Decidable (a = b)
  | .symbol s, .symbol t =>
      if names : s = t then isTrue (by rw [names]) else isFalse (by intro same; cases same; exact names rfl)
  | .linear s, .linear t =>
      if forms : s = t then isTrue (by rw [forms]) else isFalse (by intro same; cases same; exact forms rfl)
  | .least as, .least bs =>
      match Extent.decEqAll as bs with
      | isTrue members => isTrue (by rw [members])
      | isFalse apart => isFalse (by intro same; cases same; exact apart rfl)
  | .symbol _, .linear _ => isFalse (by intro same; cases same)
  | .symbol _, .least _ => isFalse (by intro same; cases same)
  | .linear _, .symbol _ => isFalse (by intro same; cases same)
  | .linear _, .least _ => isFalse (by intro same; cases same)
  | .least _, .symbol _ => isFalse (by intro same; cases same)
  | .least _, .linear _ => isFalse (by intro same; cases same)
termination_by structural a => a

def Extent.decEqAll : (as bs : List Extent) → Decidable (as = bs)
  | [], [] => isTrue rfl
  | a :: as, b :: bs =>
      match Extent.decEq a b, Extent.decEqAll as bs with
      | isTrue heads, isTrue tails => isTrue (by rw [heads, tails])
      | isFalse apart, _ => isFalse (by intro same; cases same; exact apart rfl)
      | _, isFalse apart => isFalse (by intro same; cases same; exact apart rfl)
  | [], _ :: _ => isFalse (by intro same; cases same)
  | _ :: _, [] => isFalse (by intro same; cases same)
termination_by structural as => as

def Factor.decEqAll : (fs gs : List Factor) → Decidable (fs = gs)
  | [], [] => isTrue rfl
  | f :: fs, g :: gs =>
      match Factor.decEq f g, Factor.decEqAll fs gs with
      | isTrue heads, isTrue tails => isTrue (by rw [heads, tails])
      | isFalse apart, _ => isFalse (by intro same; cases same; exact apart rfl)
      | _, isFalse apart => isFalse (by intro same; cases same; exact apart rfl)
  | [], _ :: _ => isFalse (by intro same; cases same)
  | _ :: _, [] => isFalse (by intro same; cases same)
termination_by structural fs => fs
end

instance : DecidableEq Extent := Extent.decEq
instance : DecidableEq Factor := Factor.decEq

namespace Extent

def ofInt (n : Int) : Extent := ⟨n, []⟩

def symbol (name : String) : Extent := ⟨1, [.symbol name]⟩

/-- The integer that an extent is, if it is one. -/
def integer? : Extent → Option Int
  | ⟨c, []⟩ => some c
  | _ => none

/-- An extent that is a multiple of a symbol plus an integer, as slope, symbol and offset. -/
def linear? : Extent → Option (Int × String × Int)
  | ⟨c, [.symbol name]⟩ => some (c, name, 0)
  | ⟨1, [.linear form]⟩ => some (form.slope, form.name, form.offset)
  | _ => none

/-- The difference of two extents where it is a number whatever the symbols stand for. -/
def difference? (a b : Extent) : Option Int :=
  match a.integer?, b.integer? with
  | some m, some n => some (m - n)
  | _, _ =>
      match a.linear?, b.linear? with
      | some (j, s, m), some (k, t, n) => if j = k ∧ s = t then some (m - n) else none
      | _, _ => if a = b then some 0 else none

/-- Two extents disagree if they differ by a number other than zero. -/
def disagrees (a b : Extent) : Bool :=
  match difference? a b with
  | some d => d ≠ 0
  | none => false

/-- An extent exceeds another if it is larger by a number. -/
def exceeds (a b : Extent) : Bool :=
  match difference? a b with
  | some d => 0 < d
  | none => false

/-- A multiple of a symbol plus an integer. -/
def linear (slope : Int) (name : String) (offset : Int) : Extent :=
  if sloped : slope = 0 then ofInt offset
  else if shifted : offset = 0 then ⟨slope, [.symbol name]⟩
  else ⟨1, [.linear ⟨slope, name, offset, sloped, shifted⟩]⟩

/-- The sum of two extents where no more than one symbol occurs in it. -/
def add? (a b : Extent) : Option Extent :=
  match a.integer?, b.integer?, a.linear?, b.linear? with
  | some m, some n, _, _ => some (ofInt (m + n))
  | some m, none, _, some (k, t, n) => some (linear k t (m + n))
  | none, some n, some (j, s, m), _ => some (linear j s (m + n))
  | none, none, some (j, s, m), some (k, t, n) => if s = t then some (linear (j + k) s (m + n)) else none
  | _, _, _, _ => none

end Extent
end TensorNetwork
