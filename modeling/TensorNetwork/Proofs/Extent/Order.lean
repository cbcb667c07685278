import Mathlib.Data.List.Perm.Basic
import TensorNetwork.Proofs.Delimited
import TensorNetwork.Proofs.Distinct
import TensorNetwork.Proofs.Extent.Lines

/-! The order of extents. Keys are taken apart from the left: a key that begins a longer
list of numbers is known, and so is what follows it. Hence different extents have
different keys, the order of keys is one of extents, and neither a product nor a smallest
member depends on the order of its arguments. -/
namespace TensorNetwork

theorem flatMap_runLengths {α : Type} [DecidableEq α] (l : List α) :
    (runLengths l).flatMap (fun run => List.replicate run.2 run.1) = l := by
  induction l with
  | nil => rfl
  | cons a rest ih =>
    rw [runLengths]
    split
    · rename_i b n runs counted
      rw [counted, List.flatMap_cons] at ih
      split
      · rename_i same
        rw [same, ← ih]
        rfl
      · rw [List.flatMap_cons, List.flatMap_cons, ih]
        rfl
    · rename_i counted
      rw [counted] at ih
      rw [← ih]
      rfl

theorem runLengths_injective {α : Type} [DecidableEq α] : Function.Injective (runLengths (α := α)) := by
  intro l r same
  rw [← flatMap_runLengths l, same, flatMap_runLengths]

namespace Profile

theorem nameKey_append_inj {s t : String} {u v : List Int} (same : nameKey s ++ u = nameKey t ++ v) :
    s = t ∧ u = v := by
  have codes : ∀ letters : List Char, ∀ n ∈ letters.map (fun c => (c.toNat : Int)), 0 ≤ n := by
    intro letters n member
    obtain ⟨c, -, rfl⟩ := List.mem_map.mp member
    exact Int.natCast_nonneg _
  have injective : Function.Injective fun c : Char => (c.toNat : Int) :=
    fun c d letter => Char.toNat_inj.mp (Int.ofNat.inj letter)
  simp only [nameKey, List.append_assoc, List.singleton_append] at same
  obtain ⟨names, rest⟩ := Delimited.append_inj_of_stop (codes _) (codes _) (by simp) (by simp) same
  exact ⟨String.toList_injective (List.map_injective_iff.mpr injective names), (List.cons.inj rest).2⟩

/-- The key of a sum begins with the mark of sums. -/
theorem sumKey_eq_cons (form : Linear) : ∃ rest, sumKey form = 4 :: rest := by
  unfold sumKey
  split <;> exact ⟨_, rfl⟩

theorem sumKey_append_inj {form other : Linear} {u v : List Int} (same : sumKey form ++ u = sumKey other ++ v) :
    form = other ∧ u = v := by
  obtain ⟨slope, name, offset, _, _⟩ := form
  obtain ⟨slope', name', offset', _, _⟩ := other
  unfold sumKey at same
  split at same <;> split at same
  · simp only [List.cons_append, List.nil_append, List.append_assoc, List.cons.injEq, true_and] at same
    obtain ⟨rfl, names⟩ := same
    obtain ⟨rfl, rest⟩ := nameKey_append_inj names
    simp only [List.cons.injEq, true_and] at rest
    obtain ⟨rfl, after⟩ := rest
    exact ⟨rfl, after⟩
  · simp at same
  · simp at same
  · simp only [List.cons_append, List.nil_append, List.append_assoc, List.cons.injEq, true_and] at same
    obtain ⟨rfl, rest⟩ := nameKey_append_inj same
    simp only [List.cons.injEq, true_and] at rest
    obtain ⟨rfl, rfl, after⟩ := rest
    exact ⟨rfl, after⟩

theorem keyLe_iff {as bs : List Int} : keyLe as bs = true ↔ bs.lex as = false := by
  rw [keyLe, Bool.not_eq_true']

theorem keyLe_total (as bs : List Int) : keyLe as bs = true ∨ keyLe bs as = true := by
  rw [keyLe_iff, keyLe_iff, List.lex_eq_false_iff_ge, List.lex_eq_false_iff_ge]
  exact List.le_total as bs

theorem keyLe_trans {as bs cs : List Int} (first : keyLe as bs = true) (second : keyLe bs cs = true) :
    keyLe as cs = true := by
  rw [keyLe_iff, List.lex_eq_false_iff_ge] at first second ⊢
  exact List.le_trans first second

theorem keyLe_antisymm {as bs : List Int} (first : keyLe as bs = true) (second : keyLe bs as = true) :
    as = bs := by
  rw [keyLe_iff, List.lex_eq_false_iff_ge] at first second
  exact List.le_antisymm first second

theorem power_key (base : Profile) (exponent : Nat) : (power base exponent).key = base.key ++ [(exponent : Int)] := by
  unfold power
  split
  · rename_i one
    rw [one]
    rfl
  · rfl

/-- The numbers that a run of equal factors adds to the key of a product of several. -/
def runKey (run : Profile × Nat) : List Int := run.1.key ++ [(run.2 : Int), 1]

/-- The key of a product, by the runs of its factors. -/
def runsKey (c : Int) : List (Profile × Nat) → List Int
  | [] => [1, c]
  | [run] => run.1.key ++ [(run.2 : Int), c]
  | runs => 3 :: (runs.length : Int) :: (runs.flatMap runKey ++ [c])

theorem product_key (c : Int) (factors : List Profile) : (product c factors).key = runsKey c (runLengths factors) := by
  unfold product
  cases runLengths factors with
  | nil => rfl
  | cons first rest =>
    cases rest with
    | nil =>
      simp only [List.map_cons, List.map_nil, runsKey]
      split
      · rename_i unit
        simp [power_key, unit]
      · simp [power_key]
    | cons second others =>
      have runs : ∀ run : Profile × Nat, (power run.1 run.2).key ++ [1] = runKey run := by
        intro run
        rw [power_key, runKey, List.append_assoc, List.singleton_append]
      simp [runsKey, List.flatMap_map, runs]

end Profile

/-- The key of a factor begins a list of numbers in one way only. -/
def Factor.Delimited (f : Factor) : Prop :=
  ∀ g u v, f.profile.key ++ u = g.profile.key ++ v → f = g ∧ u = v

/-- The key of an extent begins a list of numbers in one way only. -/
def Extent.Delimited (a : Extent) : Prop :=
  ∀ b u v, a.profile.key ++ u = b.profile.key ++ v → a = b ∧ u = v

namespace Factor

/-- The key of a factor is neither that of an integer nor that of a product of several powers. -/
theorem key_eq_cons (f : Factor) : ∃ tag rest, f.profile.key = tag :: rest ∧ tag ≠ 1 ∧ tag ≠ 3 := by
  cases f with
  | symbol name => exact ⟨2, _, rfl, by decide, by decide⟩
  | linear form =>
    obtain ⟨rest, key⟩ := Profile.sumKey_eq_cons form
    exact ⟨4, rest, key, by decide, by decide⟩
  | least members => exact ⟨5, _, rfl, by decide, by decide⟩

theorem linear_key (form : Linear) : (linear form).profile.key = Profile.sumKey form := rfl

theorem least_key (members : List Extent) :
    (least members).profile.key = 5 :: (members.length : Int) :: members.flatMap fun a => a.profile.key := by
  simp [profile, Profile.least, Extent.profiles_eq_map, List.flatMap_map]

theorem delimited_symbol (name : String) : (symbol name).Delimited := by
  intro g u v same
  cases g with
  | symbol other =>
    obtain ⟨rfl, rest⟩ := Profile.nameKey_append_inj (List.cons.inj same).2
    exact ⟨rfl, rest⟩
  | linear form =>
    obtain ⟨rest, key⟩ := Profile.sumKey_eq_cons form
    rw [linear_key, key] at same
    cases (List.cons.inj same).1
  | least members => cases (List.cons.inj same).1

theorem delimited_linear (form : Linear) : (linear form).Delimited := by
  intro g u v same
  cases g with
  | linear other =>
    obtain ⟨rfl, rest⟩ := Profile.sumKey_append_inj same
    exact ⟨rfl, rest⟩
  | _ =>
    obtain ⟨rest, key⟩ := Profile.sumKey_eq_cons form
    rw [linear_key, key] at same
    cases (List.cons.inj same).1

theorem delimited_least {members : List Extent} (each : ∀ a ∈ members, a.Delimited) : (least members).Delimited := by
  intro g u v same
  cases g with
  | symbol other => cases (List.cons.inj same).1
  | linear form =>
    obtain ⟨rest, key⟩ := Profile.sumKey_eq_cons form
    rw [linear_key, key] at same
    cases (List.cons.inj same).1
  | least others =>
    rw [least_key, least_key, List.cons_append, List.cons_append, List.cons_append, List.cons_append] at same
    obtain ⟨count, rest⟩ := List.cons.inj (List.cons.inj same).2
    obtain ⟨rfl, after⟩ := TensorNetwork.Delimited.flatMap_append_inj (fun a held b _ => each a held b)
      (Int.ofNat.inj count) rest
    exact ⟨rfl, after⟩

end Factor

namespace Extent

/-- The first number of the key of a product tells whether it has none, one or several runs. -/
theorem runsKey_eq_cons {runs : List (Profile × Nat)} (bases : ∀ run ∈ runs, ∃ f : Factor, f.profile = run.1)
    (c : Int) (u : List Int) :
    ∃ tag rest, Profile.runsKey c runs ++ u = tag :: rest ∧ (tag = 1 ↔ runs.length = 0) ∧
      (tag = 3 ↔ 2 ≤ runs.length) := by
  match runs with
  | [] => exact ⟨1, _, rfl, by decide, by decide⟩
  | [run] =>
    obtain ⟨f, base⟩ := bases run List.mem_cons_self
    obtain ⟨tag, rest, key, integer, several⟩ := f.key_eq_cons
    rw [base] at key
    refine ⟨tag, rest ++ [(run.2 : Int), c] ++ u, ?_, by simp [integer], by simp [several]⟩
    simp only [Profile.runsKey, key, List.cons_append]
  | first :: second :: others => exact ⟨3, _, rfl, by simp, by simp⟩

/-- Runs of factors that are told apart are told apart in the key of their product. -/
theorem runsKey_append_inj {runs others : List (Profile × Nat)} {c d : Int} {u v : List Int}
    (left : ∀ run ∈ runs, ∃ f : Factor, f.profile = run.1 ∧ f.Delimited)
    (right : ∀ run ∈ others, ∃ g : Factor, g.profile = run.1)
    (same : Profile.runsKey c runs ++ u = Profile.runsKey d others ++ v) : runs = others ∧ c = d ∧ u = v := by
  have bases : ∀ run ∈ runs, ∀ other ∈ others, ∀ u v, run.1.key ++ u = other.1.key ++ v →
      run.1 = other.1 ∧ u = v := by
    intro run here other there u v keys
    obtain ⟨f, base, delimited⟩ := left run here
    obtain ⟨g, base'⟩ := right other there
    rw [← base, ← base'] at keys ⊢
    obtain ⟨rfl, rest⟩ := delimited g u v keys
    exact ⟨rfl, rest⟩
  obtain ⟨tag, rest, key, none, several⟩ :=
    runsKey_eq_cons (fun run listed => (left run listed).imp fun _ both => both.1) c u
  obtain ⟨tag', rest', key', none', several'⟩ := runsKey_eq_cons right d v
  rw [← (List.cons.inj (key.symm.trans (same.trans key'))).1] at none' several'
  have empty := none.symm.trans none'
  have long := several.symm.trans several'
  match runs, others with
  | [], [] =>
    simp only [Profile.runsKey, List.cons_append, List.nil_append, List.cons.injEq, true_and] at same
    exact ⟨rfl, same⟩
  | [run], [other] =>
    simp only [Profile.runsKey, List.append_assoc, List.cons_append, List.nil_append] at same
    obtain ⟨base, after⟩ := bases run List.mem_cons_self other List.mem_cons_self _ _ same
    obtain ⟨exponent, after⟩ := List.cons.inj after
    obtain ⟨coefficient, after⟩ := List.cons.inj after
    exact ⟨by rw [Prod.ext base (Int.ofNat.inj exponent)], coefficient, after⟩
  | first :: second :: runs, first' :: second' :: others =>
    simp only [Profile.runsKey, List.append_assoc, List.cons_append, List.nil_append] at same
    obtain ⟨count, after⟩ := List.cons.inj (List.cons.inj same).2
    obtain ⟨all, after⟩ := TensorNetwork.Delimited.flatMap_append_inj (fun run here other there u v keys => by
      simp only [Profile.runKey, List.append_assoc, List.cons_append, List.nil_append] at keys
      obtain ⟨base, after⟩ := bases run here other there _ _ keys
      obtain ⟨exponent, after⟩ := List.cons.inj after
      exact ⟨Prod.ext base (Int.ofNat.inj exponent), (List.cons.inj after).2⟩) (Int.ofNat.inj count) after
    exact ⟨all, List.cons.inj after⟩
  | [], _ :: _ => simp at empty
  | _ :: _, [] => simp at empty
  | [_], _ :: _ :: _ => simp at long
  | _ :: _ :: _, [_] => simp at long

/-- A run of a product is one of factors of its own. -/
theorem run_factor {factors : List Factor} {run : Profile × Nat}
    (listed : run ∈ runLengths (factors.map Factor.profile)) : ∃ f ∈ factors, f.profile = run.1 := by
  exact List.mem_map.mp (mem_runLengths.mp ⟨run.2, listed⟩)

theorem map_profile_inj {fs gs : List Factor} (each : ∀ f ∈ fs, f.Delimited)
    (same : fs.map Factor.profile = gs.map Factor.profile) : fs = gs := by
  induction fs generalizing gs with
  | nil => exact (List.map_eq_nil_iff.mp same.symm).symm
  | cons f fs ih =>
    cases gs with
    | nil => cases same
    | cons g gs =>
      obtain ⟨head, tail⟩ := List.cons.inj same
      obtain ⟨rfl, -⟩ := each f List.mem_cons_self g [] [] (by rw [head])
      rw [ih (fun h member => each h (List.mem_cons_of_mem _ member)) tail]

theorem delimited_of_factors {a : Extent} (each : ∀ f ∈ a.factors, f.Delimited) : a.Delimited := by
  intro b u v same
  obtain ⟨c, fs⟩ := a
  obtain ⟨d, gs⟩ := b
  simp only [profile, Profile.product_key, Factor.profiles_eq_map] at same
  obtain ⟨runs, rfl, rest⟩ := runsKey_append_inj
    (fun run listed => (run_factor listed).imp fun f known => ⟨known.2, each f known.1⟩)
    (fun run listed => (run_factor listed).imp fun _ known => known.2) same
  obtain rfl : fs = gs := map_profile_inj each (runLengths_injective runs)
  exact ⟨rfl, rest⟩

end Extent

mutual
theorem Extent.delimited : (a : Extent) → a.Delimited
  | ⟨_, factors⟩ => Extent.delimited_of_factors (Factor.delimited_all factors)

theorem Factor.delimited : (f : Factor) → f.Delimited
  | .symbol name => Factor.delimited_symbol name
  | .linear form => Factor.delimited_linear form
  | .least members => Factor.delimited_least (Extent.delimited_all members)

theorem Extent.delimited_all : (extents : List Extent) → ∀ a ∈ extents, a.Delimited
  | [] => by simp
  | a :: rest => List.forall_mem_cons.mpr ⟨a.delimited, Extent.delimited_all rest⟩

theorem Factor.delimited_all : (factors : List Factor) → ∀ f ∈ factors, f.Delimited
  | [] => by simp
  | f :: rest => List.forall_mem_cons.mpr ⟨f.delimited, Factor.delimited_all rest⟩
end

theorem Factor.le_antisymm {f g : Factor} (first : f.le g = true) (second : g.le f = true) : f = g := by
  have keys : f.profile.key = g.profile.key := Profile.keyLe_antisymm first second
  exact (f.delimited g [] [] (by rw [keys])).1

theorem Factor.sort_eq_of_perm {fs gs : List Factor} (perm : fs.Perm gs) :
    Ordered.sort Factor.le fs = Ordered.sort Factor.le gs :=
  Ordered.sort_eq_of_perm Factor.le (fun _ _ => Profile.keyLe_total _ _) (fun _ _ _ => Profile.keyLe_trans)
    (fun _ _ => Factor.le_antisymm) perm

namespace Extent

theorem memberLe_antisymm {a b : Extent} (first : memberLe a b = true) (second : memberLe b a = true) : a = b := by
  have keys := (List.cons.inj (Profile.keyLe_antisymm first second)).2
  exact (a.delimited b [] [] (by rw [keys])).1

/-- A product does not depend on the order of its factors. -/
theorem product_perm {extents others : List Extent} (perm : extents.Perm others) :
    product extents = product others := by
  have coefficients : (extents.map coefficient).prod = (others.map coefficient).prod := (perm.map _).prod_eq
  have factors := Factor.sort_eq_of_perm (perm.flatMap_right factors)
  rw [product, product, coefficient_foldr, coefficient_foldr, coefficients, factors]

/-- The members that are kept depend only on what the members are. -/
theorem normalMembers_congr {extents others : List Extent}
    (same : ∀ a, a ∈ extents.flatMap members ↔ a ∈ others.flatMap members) :
    normalMembers extents = normalMembers others := by
  apply Ordered.sort_eq_of_perm memberLe (fun _ _ => Profile.keyLe_total _ _) (fun _ _ _ => Profile.keyLe_trans)
    (fun _ _ => memberLe_antisymm)
  rw [List.perm_ext_iff_of_nodup (nodup_eraseDups _) (nodup_eraseDups _)]
  intro a
  simp only [List.mem_eraseDups, List.mem_filter, Bool.not_eq_true', List.any_eq_false, same]

/-- A smallest member does not depend on the order of the members. -/
theorem least_perm {extents others : List Extent} (perm : extents.Perm others) : least extents = least others := by
  have kept : normalMembers extents = normalMembers others :=
    normalMembers_congr fun _ => (perm.flatMap_right members).mem_iff
  rw [least, least, kept]

end Extent
end TensorNetwork
