import Mathlib.Algebra.BigOperators.Group.List.Basic
import Mathlib.Algebra.Order.Group.Unbundled.Int
import Mathlib.Tactic.Ring
import TensorNetwork.Extent.Algebra
import TensorNetwork.Extent.Value
import TensorNetwork.Proofs.Ordered

/-! Normal forms keep values. Whatever integers the symbols stand for, a product
of extents has the product of their values and a smallest of extents the smallest
of their values, and a sum has the sum of both; extents that disagree differ in value. -/
namespace TensorNetwork

theorem Extent.values_eq_map (v : String → Int) (extents : List Extent) :
    Extent.values v extents = extents.map (Extent.value v) := by
  induction extents with
  | nil => rfl
  | cons a rest ih => rw [Extent.values, ih, List.map_cons]

theorem Factor.values_eq_map (v : String → Int) (factors : List Factor) :
    Factor.values v factors = factors.map (Factor.value v) := by
  induction factors with
  | nil => rfl
  | cons f rest ih => rw [Factor.values, ih, List.map_cons]

theorem Factor.value_least (v : String → Int) (members : List Extent) :
    (Factor.least members).value v = ((members.map (Extent.value v)).min?).getD 0 := by
  rw [Factor.value, Extent.values_eq_map]
  cases members.map (Extent.value v) <;> rfl

mutual
/-- No smallest of nothing occurs in an extent. -/
def Extent.Proper : Extent → Prop
  | ⟨_, factors⟩ => Factor.AllProper factors

def Factor.Proper : Factor → Prop
  | .least members => members ≠ [] ∧ Extent.AllProper members
  | _ => True

def Extent.AllProper : List Extent → Prop
  | [] => True
  | a :: rest => a.Proper ∧ Extent.AllProper rest

def Factor.AllProper : List Factor → Prop
  | [] => True
  | f :: rest => f.Proper ∧ Factor.AllProper rest
end

theorem Extent.allProper_iff {extents : List Extent} : AllProper extents ↔ ∀ a ∈ extents, a.Proper := by
  induction extents with
  | nil => simp [AllProper]
  | cons a rest ih => simp [AllProper, ih]

theorem Factor.allProper_iff {factors : List Factor} : AllProper factors ↔ ∀ f ∈ factors, f.Proper := by
  induction factors with
  | nil => simp [AllProper]
  | cons f rest ih => simp [AllProper, ih]

namespace Extent
variable (v : String → Int)

theorem value_eq_prod (a : Extent) : a.value v = a.coefficient * (a.factors.map (Factor.value v)).prod := by
  cases a with
  | mk c factors => rw [value, Factor.values_eq_map, List.prod_eq_foldr]

@[simp] theorem value_ofInt (n : Int) : (ofInt n).value v = n := by
  simp [value_eq_prod, ofInt]

@[simp] theorem value_symbol (name : String) : (symbol name).value v = v name := by
  simp [value_eq_prod, symbol, Factor.value]

theorem proper_iff {a : Extent} : a.Proper ↔ ∀ f ∈ a.factors, f.Proper := by
  cases a with
  | mk c factors => rw [Proper, Factor.allProper_iff]

theorem proper_ofInt (n : Int) : (ofInt n).Proper := by simp [proper_iff, ofInt]

theorem proper_symbol (name : String) : (symbol name).Proper := by
  simp [proper_iff, symbol, Factor.Proper]

theorem coefficient_foldr (extents : List Extent) :
    extents.foldr (fun a c => a.coefficient * c) 1 = (extents.map coefficient).prod := by
  rw [List.prod_eq_foldr, List.foldr_map]

/-- The values of the parts of several extents multiply to the product of their values. -/
theorem prod_values (extents : List Extent) :
    (extents.map (value v)).prod =
      (extents.map coefficient).prod * ((extents.flatMap factors).map (Factor.value v)).prod := by
  induction extents with
  | nil => rfl
  | cons a rest ih =>
    rw [List.map_cons, List.prod_cons, ih, value_eq_prod, List.map_cons, List.prod_cons, List.flatMap_cons,
      List.map_append, List.prod_append]
    ring

theorem value_scaled (c : Int) (factors : List Factor) :
    (scaled c factors).value v = c * (factors.map (Factor.value v)).prod := by
  unfold scaled
  split
  · rename_i zero
    rw [value_ofInt, zero, zero_mul]
  · split
    · simp only [value_eq_prod, List.map_singleton, List.prod_singleton, Factor.value, Linear.scale]
      ring
    · exact value_eq_prod v _

theorem value_product (extents : List Extent) :
    (product extents).value v = (extents.map (value v)).prod := by
  rw [prod_values, product, value_scaled, coefficient_foldr]
  exact congrArg _ (((Ordered.sort_perm Factor.le _).map _).prod_eq)

-- An integer is multiplied into a sum.
example : product [ofInt 2, linear 1 "n" 1] = linear 2 "n" 2 := by decide

theorem proper_scaled {c : Int} {factors : List Factor} (proper : ∀ f ∈ factors, f.Proper) :
    (scaled c factors).Proper := by
  unfold scaled
  split
  · exact proper_ofInt 0
  · split
    · simp [proper_iff, Factor.Proper]
    · exact proper_iff.mpr proper

theorem proper_product {extents : List Extent} (proper : ∀ a ∈ extents, a.Proper) :
    (product extents).Proper := by
  apply proper_scaled
  intro f member
  obtain ⟨a, held, factor⟩ := List.mem_flatMap.mp (Ordered.mem_sort.mp member)
  exact proper_iff.mp (proper a held) f factor

theorem value_of_integer? {a : Extent} {n : Int} (integer : a.integer? = some n) : a.value v = n := by
  obtain ⟨c, factors⟩ := a
  cases factors with
  | nil =>
    cases integer
    exact value_ofInt v n
  | cons f rest => simp [integer?] at integer

theorem value_of_linear? {a : Extent} {slope : Int} {name : String} {offset : Int}
    (form : a.linear? = some (slope, name, offset)) : a.value v = slope * v name + offset := by
  unfold linear? at form
  split at form
  · cases form
    simp [value_eq_prod, Factor.value]
  · cases form
    simp [value_eq_prod, Factor.value]
  · cases form

theorem value_difference {a b : Extent} {d : Int} (different : difference? a b = some d) :
    a.value v - b.value v = d := by
  unfold difference? at different
  split at different
  · rename_i m n left right
    cases different
    rw [value_of_integer? v left, value_of_integer? v right]
  · split at different
    · rename_i j s m k t n left right
      split at different
      · rename_i same
        obtain ⟨rfl, rfl⟩ := same
        cases different
        rw [value_of_linear? v left, value_of_linear? v right]
        ring
      · cases different
    · split at different
      · rename_i same
        cases different
        rw [same, sub_self]
      · cases different

example : difference? (product [ofInt 2, linear 1 "n" 1]) (product [ofInt 2, symbol "n"]) = some 2 := by decide

/-- Extents disagree only if no choice of integers makes them equal. -/
theorem value_ne_of_disagrees {a b : Extent} (disagree : a.disagrees b = true) : a.value v ≠ b.value v := by
  unfold disagrees at disagree
  split at disagree
  · rename_i d different
    have nonzero : d ≠ 0 := by simpa using disagree
    have apart : a.value v - b.value v = d := value_difference v different
    intro same
    omega
  · cases disagree

theorem value_lt_of_exceeds {a b : Extent} (exceed : a.exceeds b = true) : b.value v < a.value v := by
  unfold exceeds at exceed
  split at exceed
  · rename_i d different
    have positive : 0 < d := by simpa using exceed
    have apart : a.value v - b.value v = d := value_difference v different
    omega
  · cases exceed

theorem value_linear (slope : Int) (name : String) (offset : Int) :
    (linear slope name offset).value v = slope * v name + offset := by
  unfold linear
  split
  · rename_i flat
    rw [value_ofInt, flat, zero_mul, zero_add]
  · split
    · rename_i plain
      simp [value_eq_prod, Factor.value, plain]
    · simp [value_eq_prod, Factor.value]

theorem proper_linear (slope : Int) (name : String) (offset : Int) : (linear slope name offset).Proper := by
  unfold linear
  split
  · exact proper_ofInt offset
  · split <;> simp [proper_iff, Factor.Proper]

/-- A sum has the sum of both values. -/
theorem value_add {a b sum : Extent} (added : add? a b = some sum) : sum.value v = a.value v + b.value v := by
  unfold add? at added
  split at added
  · rename_i m n left right
    cases added
    rw [value_ofInt, value_of_integer? v left, value_of_integer? v right]
  · rename_i m k t n left _ right
    cases added
    rw [value_linear, value_of_integer? v left, value_of_linear? v right]
    ring
  · rename_i n j s m _ right left
    cases added
    rw [value_linear, value_of_linear? v left, value_of_integer? v right]
    ring
  · rename_i j s m k t n _ _ left right
    split at added
    · rename_i same
      cases added
      rw [value_linear, value_of_linear? v left, value_of_linear? v right, same]
      ring
    · cases added
  · cases added

theorem min?_members {a : Extent} (proper : a.Proper) :
    (a.members.map (value v)).min? = some (a.value v) := by
  unfold members
  split
  · rename_i inner
    obtain ⟨nonempty, -⟩ : inner ≠ [] ∧ AllProper inner := proper_iff.mp proper _ List.mem_cons_self
    rw [value_eq_prod]
    obtain ⟨m, smallest⟩ := Option.isSome_iff_exists.mp
      (List.isSome_min?_of_ne_nil (l := inner.map (value v)) (by simpa using nonempty))
    simp [Factor.value_least, smallest]
  · rfl

theorem mem_normalMembers {extents : List Extent} {a : Extent} :
    a ∈ normalMembers extents ↔
      a ∈ extents.flatMap members ∧ ∀ b ∈ extents.flatMap members, ¬ a.exceeds b = true := by
  rw [normalMembers, Ordered.mem_sort, List.mem_eraseDups, List.mem_filter, Bool.not_eq_true',
    List.any_eq_false]

/-- Leaving out members that exceed another does not change the smallest value. -/
theorem min?_normalMembers {extents : List Extent} (proper : ∀ a ∈ extents, a.Proper) {m : Int}
    (smallest : (extents.map (value v)).min? = some m) :
    ((normalMembers extents).map (value v)).min? = some m := by
  obtain ⟨attained, below⟩ := List.min?_eq_some_iff.mp smallest
  have bounded : ∀ b ∈ extents.flatMap members, m ≤ b.value v := by
    intro b member
    obtain ⟨a, held, inner⟩ := List.mem_flatMap.mp member
    have := (List.min?_eq_some_iff.mp (min?_members v (proper a held))).2 _ (List.mem_map_of_mem inner)
    exact (below _ (List.mem_map_of_mem held)).trans this
  refine List.min?_eq_some_iff.mpr ⟨?_, ?_⟩
  · -- a member with the smallest value exceeds none
    obtain ⟨a, held, rfl⟩ := List.mem_map.mp attained
    obtain ⟨b, inner, same⟩ := List.mem_map.mp (List.min?_eq_some_iff.mp (min?_members v (proper a held))).1
    have member : b ∈ extents.flatMap members := List.mem_flatMap.mpr ⟨a, held, inner⟩
    rw [← same]
    refine List.mem_map_of_mem (mem_normalMembers.mpr ⟨member, fun c other exceed => ?_⟩)
    have lower := value_lt_of_exceeds v exceed
    have upper := bounded c other
    omega
  · intro x listed
    obtain ⟨b, member, rfl⟩ := List.mem_map.mp listed
    exact bounded b (mem_normalMembers.mp member).1

theorem value_least {extents : List Extent} (proper : ∀ a ∈ extents, a.Proper) {m : Int}
    (smallest : (extents.map (value v)).min? = some m) : (least extents).value v = m := by
  have kept := min?_normalMembers v proper smallest
  unfold least
  split
  · rename_i only single
    simpa [single] using kept
  · simp [value_eq_prod, Factor.value_least, kept]

example : least [linear 1 "n" 1, symbol "n", symbol "m"] = least [symbol "m", symbol "n"] := by decide

theorem proper_members {a : Extent} (proper : a.Proper) : ∀ b ∈ a.members, b.Proper := by
  unfold members
  split
  · have inner : Factor.Proper (.least _) := proper_iff.mp proper _ List.mem_cons_self
    exact allProper_iff.mp inner.2
  · intro b member
    rw [List.mem_singleton.mp member]
    exact proper

theorem proper_least {extents : List Extent} (nonempty : extents ≠ []) (proper : ∀ a ∈ extents, a.Proper) :
    (least extents).Proper := by
  have kept : ∀ b ∈ normalMembers extents, b.Proper := by
    intro b member
    obtain ⟨a, held, inner⟩ := List.mem_flatMap.mp (mem_normalMembers.mp member).1
    exact proper_members (proper a held) b inner
  have some : normalMembers extents ≠ [] := by
    intro none
    obtain ⟨m, smallest⟩ := Option.isSome_iff_exists.mp
      (List.isSome_min?_of_ne_nil (l := extents.map (value fun _ => 0)) (by simpa using nonempty))
    have := min?_normalMembers _ proper smallest
    simp [none] at this
  unfold least
  split
  · rename_i only single
    exact kept only (by simp [single])
  · rw [proper_iff]
    intro f member
    rw [List.mem_singleton.mp member]
    exact ⟨some, allProper_iff.mpr kept⟩

end Extent
end TensorNetwork
