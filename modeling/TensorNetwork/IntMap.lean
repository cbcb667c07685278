/-! Finite maps keyed by integers. The entries are kept in ascending order of
their keys, so a map is determined by what it associates with each key
(`IntMap.ext_get?`) and listing it needs no sorting. -/
namespace TensorNetwork

structure IntMap (α : Type) where
  entries : List (Int × α)
  ascending : entries.Pairwise fun a b => a.1 < b.1

namespace IntMap
variable {α β : Type}

instance [DecidableEq α] : DecidableEq (IntMap α) := fun a b =>
  if h : a.entries = b.entries then
    isTrue (by cases a; cases b; cases h; rfl)
  else
    isFalse fun same => h (congrArg entries same)

def empty : IntMap α := ⟨[], .nil⟩

def lookup (key : Int) : List (Int × α) → Option α
  | [] => none
  | entry :: rest => if entry.1 = key then some entry.2 else lookup key rest

def get? (m : IntMap α) (key : Int) : Option α :=
  lookup key m.entries

def contains (m : IntMap α) (key : Int) : Bool :=
  (m.get? key).isSome

def keys (m : IntMap α) : List Int :=
  m.entries.map Prod.fst

def size (m : IntMap α) : Nat :=
  m.entries.length

def place (key : Int) (value : α) : List (Int × α) → List (Int × α)
  | [] => [(key, value)]
  | entry :: rest =>
      if key < entry.1 then (key, value) :: entry :: rest
      else if key = entry.1 then (key, value) :: rest
      else entry :: place key value rest

theorem mem_place {key : Int} {value : α} {l : List (Int × α)} {e : Int × α}
    (member : e ∈ place key value l) : e = (key, value) ∨ e ∈ l := by
  induction l with
  | nil => simpa [place] using member
  | cons head tail ih =>
    unfold place at member
    split at member
    · simpa using member
    · split at member
      · rcases List.mem_cons.mp member with here | there
        · exact .inl here
        · exact .inr (List.mem_cons_of_mem _ there)
      · rcases List.mem_cons.mp member with here | there
        · exact .inr (here ▸ List.mem_cons_self)
        · exact (ih there).imp id (List.mem_cons_of_mem _)

theorem place_ascending (key : Int) (value : α) {l : List (Int × α)}
    (sorted : l.Pairwise fun a b => a.1 < b.1) :
    (place key value l).Pairwise fun a b => a.1 < b.1 := by
  induction l with
  | nil => simp [place]
  | cons head tail ih =>
    obtain ⟨first, rest⟩ := List.pairwise_cons.mp sorted
    unfold place
    split
    · rename_i below
      refine List.pairwise_cons.mpr ⟨fun e member => ?_, sorted⟩
      rcases List.mem_cons.mp member with rfl | later
      · exact below
      · exact Int.lt_trans below (first e later)
    · split
      · rename_i same
        exact List.pairwise_cons.mpr ⟨fun e member => same ▸ first e member, rest⟩
      · refine List.pairwise_cons.mpr ⟨fun e member => ?_, ih rest⟩
        rcases mem_place member with rfl | old
        · show head.1 < key
          omega
        · exact first e old

def insert (m : IntMap α) (key : Int) (value : α) : IntMap α :=
  ⟨place key value m.entries, place_ascending key value m.ascending⟩

/-- Later pairs replace earlier ones with the same key. -/
def ofList (pairs : List (Int × α)) : IntMap α :=
  pairs.foldl (fun m pair => m.insert pair.1 pair.2) empty

theorem lookup_place (key other : Int) (value : α) {l : List (Int × α)}
    (sorted : l.Pairwise fun a b => a.1 < b.1) :
    lookup other (place key value l) = if key = other then some value else lookup other l := by
  induction l with
  | nil => simp [place, lookup]
  | cons head tail ih =>
    obtain ⟨first, rest⟩ := List.pairwise_cons.mp sorted
    unfold place
    split
    · by_cases same : key = other <;> simp [lookup, same]
    · split
      · rename_i same
        by_cases hit : key = other
        · simp [lookup, hit]
        · simp [lookup, hit, ← same]
      · rename_i above apart
        by_cases hit : head.1 = other
        · have : key ≠ other := fun h => apart (h.trans hit.symm)
          simp [lookup, hit, this]
        · simp [lookup, hit, ih rest]

@[simp] theorem get?_empty (key : Int) : (empty : IntMap α).get? key = none := rfl

theorem get?_insert (m : IntMap α) (key other : Int) (value : α) :
    (m.insert key value).get? other = if key = other then some value else m.get? other :=
  lookup_place key other value m.ascending

theorem lookup_eq_none_of_lt {key : Int} {l : List (Int × α)} (below : ∀ e ∈ l, key < e.1) :
    lookup key l = none := by
  induction l with
  | nil => rfl
  | cons head tail ih =>
    have := below head List.mem_cons_self
    have apart : head.1 ≠ key := by omega
    simp [lookup, apart, ih fun e member => below e (List.mem_cons_of_mem _ member)]

theorem entries_eq_of_lookup {l r : List (Int × α)}
    (left : l.Pairwise fun a b => a.1 < b.1) (right : r.Pairwise fun a b => a.1 < b.1)
    (same : ∀ key, lookup key l = lookup key r) : l = r := by
  induction l generalizing r with
  | nil =>
    cases r with
    | nil => rfl
    | cons head tail => simpa [lookup] using same head.1
  | cons head tail ih =>
    obtain ⟨above, rest⟩ := List.pairwise_cons.mp left
    cases r with
    | nil => simpa [lookup] using same head.1
    | cons first others =>
      obtain ⟨above', rest'⟩ := List.pairwise_cons.mp right
      have keyed : head.1 = first.1 := by
        rcases Int.lt_trichotomy head.1 first.1 with lower | equal | higher
        · have absent : lookup head.1 (first :: others) = none :=
            lookup_eq_none_of_lt fun e member => by
              rcases List.mem_cons.mp member with rfl | later
              · exact lower
              · exact Int.lt_trans lower (above' e later)
          rw [← same head.1] at absent
          simp [lookup] at absent
        · exact equal
        · have absent : lookup first.1 (head :: tail) = none :=
            lookup_eq_none_of_lt fun e member => by
              rcases List.mem_cons.mp member with rfl | later
              · exact higher
              · exact Int.lt_trans higher (above e later)
          rw [same first.1] at absent
          simp [lookup] at absent
      have valued : head.2 = first.2 := by
        simpa [lookup, keyed] using same first.1
      have tails : tail = others := ih rest rest' fun key => by
        by_cases hit : head.1 = key
        · rw [lookup_eq_none_of_lt fun e member => hit ▸ above e member,
            lookup_eq_none_of_lt fun e member => hit ▸ keyed ▸ above' e member]
        · have := same key
          simpa [lookup, hit, keyed ▸ hit] using this
      rw [tails, Prod.ext keyed valued]

theorem ext_get? {m n : IntMap α} (same : ∀ key, m.get? key = n.get? key) : m = n := by
  have := entries_eq_of_lookup m.ascending n.ascending same
  cases m; cases n; cases this; rfl

end IntMap
end TensorNetwork
