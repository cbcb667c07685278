import TensorNetwork.Proofs.Extent.Value
import TensorNetwork.Proofs.Text.Lines

/-! Lines in the text of extents. The text of an extent holds the names of its symbols as
they are, and nothing else that could end a line: an extent stays on its line exactly if
its factors do, and products and smallest members of such extents do as well. -/
namespace TensorNetwork
open Text Text.LineEnds

theorem mem_runLengths {α : Type} [DecidableEq α] {a : α} {l : List α} :
    (∃ n, (a, n) ∈ runLengths l) ↔ a ∈ l := by
  induction l with
  | nil => simp [runLengths]
  | cons b rest ih =>
    rw [List.mem_cons, ← ih, runLengths]
    split
    · split
      · rename_i c n runs counted same
        subst same
        rw [counted]
        simp only [List.mem_cons, Prod.mk.injEq]
        constructor
        · rintro ⟨m, ⟨rfl, -⟩ | later⟩
          · exact .inl rfl
          · exact .inr ⟨m, .inr later⟩
        · rintro (rfl | ⟨m, ⟨rfl, -⟩ | later⟩)
          · exact ⟨n + 1, .inl ⟨rfl, rfl⟩⟩
          · exact ⟨n + 1, .inl ⟨rfl, rfl⟩⟩
          · exact ⟨m, .inr later⟩
      · rename_i c n runs counted apart
        rw [counted]
        simp [exists_or]
    · rename_i counted
      rw [counted]
      simp

variable {ends : LineEnds}

namespace Profile

theorem inline_enclosed {p : Profile} : ends.Inline p.enclosed ↔ ends.Inline p.text := by
  have front : ends.Inline "(" := inline_of_printed (by decide)
  have back : ends.Inline ")" := inline_of_printed (by decide)
  unfold enclosed
  split
  · rw [inline_append, inline_append]
    exact ⟨fun all => all.1.2, fun inside => ⟨⟨front, inside⟩, back⟩⟩
  · exact Iff.rfl

theorem inline_power {base : Profile} {exponent : Nat} :
    ends.Inline (power base exponent).text ↔ ends.Inline base.text := by
  have stars : ends.Inline "**" := inline_of_printed (by decide)
  unfold power
  split
  · exact Iff.rfl
  · rw [inline_append, inline_append, inline_enclosed]
    exact ⟨fun all => all.1.1, fun base => ⟨⟨base, stars⟩, inline_nat _⟩⟩

theorem inline_coefficientText (c : Int) : ends.Inline (coefficientText c) := by
  unfold coefficientText
  split
  · exact inline_of_printed (by decide)
  · split
    · exact inline_of_printed (by decide)
    · exact inline_append.mpr ⟨inline_int c, inline_of_printed (by decide)⟩

theorem inline_product {c : Int} {factors : List Profile} :
    ends.Inline (product c factors).text ↔ ∀ base ∈ factors, ends.Inline base.text := by
  have powers : ends.Inline (product c factors).text ↔
      ∀ p ∈ (runLengths factors).map fun run => power run.1 run.2, ends.Inline p.text := by
    have star : ends.Inline "*" := inline_of_printed (by decide)
    have front : ends.Inline (coefficientText c) := inline_coefficientText c
    unfold product
    split
    · rename_i none
      rw [show (runLengths factors).map (fun run => power run.1 run.2) = [] from none]
      exact iff_of_true (inline_int c) fun _ member => (List.not_mem_nil member).elim
    · rename_i only single
      rw [show (runLengths factors).map (fun run => power run.1 run.2) = [only] from single]
      rw [List.forall_mem_singleton]
      split
      · exact Iff.rfl
      · rw [inline_append, inline_enclosed]
        exact and_iff_right front
    · rw [inline_append, inline_intercalate star, List.forall_mem_map]
      simp only [inline_enclosed]
      exact and_iff_right front
  rw [powers]
  constructor
  · intro each base member
    obtain ⟨n, run⟩ := mem_runLengths.mpr member
    exact inline_power.mp (each _ (List.mem_map_of_mem run))
  · intro each p member
    obtain ⟨⟨base, n⟩, run, rfl⟩ := List.mem_map.mp member
    exact inline_power.mpr (each base (mem_runLengths.mp ⟨n, run⟩))

theorem inline_sum {form : Linear} : ends.Inline (sum form).text ↔ ends.Inline form.name := by
  have minus : ends.Inline " - " := inline_of_printed (by decide)
  have plus : ends.Inline " + " := inline_of_printed (by decide)
  change ends.Inline (sumText form) ↔ _
  unfold sumText
  split
  · rw [inline_append, inline_append, inline_append]
    exact ⟨fun all => all.2, fun name => ⟨⟨⟨inline_int _, minus⟩, inline_coefficientText _⟩, name⟩⟩
  · have sign : ends.Inline (if form.offset < 0 then " - " else " + ") := by
      split
      · exact minus
      · exact plus
    rw [inline_append, inline_append, inline_append]
    exact ⟨fun all => all.1.1.2, fun name => ⟨⟨⟨inline_coefficientText _, name⟩, sign⟩, inline_nat _⟩⟩

theorem inline_least {members : List Profile} :
    ends.Inline (least members).text ↔ ∀ p ∈ members, ends.Inline p.text := by
  have front : ends.Inline "Min(" := inline_of_printed (by decide)
  have back : ends.Inline ")" := inline_of_printed (by decide)
  rw [least, inline_append, inline_append, inline_commaSeparated, List.forall_mem_map]
  simp only [Ordered.mem_sort, front, back, true_and, and_true]

end Profile

theorem Extent.profiles_eq_map (extents : List Extent) : Extent.profiles extents = extents.map Extent.profile := by
  induction extents with
  | nil => rfl
  | cons a rest ih => rw [Extent.profiles, ih, List.map_cons]

theorem Factor.profiles_eq_map (factors : List Factor) : Factor.profiles factors = factors.map Factor.profile := by
  induction factors with
  | nil => rfl
  | cons f rest ih => rw [Factor.profiles, ih, List.map_cons]

theorem Factor.inline_least {members : List Extent} :
    ends.Inline (Factor.least members).profile.text ↔ ∀ a ∈ members, ends.Inline a.text := by
  rw [Factor.profile, Profile.inline_least, Extent.profiles_eq_map, List.forall_mem_map]
  rfl

namespace Extent

theorem inline_text {a : Extent} : ends.Inline a.text ↔ ∀ f ∈ a.factors, ends.Inline f.profile.text := by
  obtain ⟨c, factors⟩ := a
  rw [text, profile, Profile.inline_product, Factor.profiles_eq_map, List.forall_mem_map]

theorem inline_ofInt (n : Int) : ends.Inline (ofInt n).text :=
  inline_text.mpr fun _ member => (List.not_mem_nil member).elim

theorem inline_symbol {name : String} : ends.Inline (symbol name).text ↔ ends.Inline name := by
  rw [inline_text, symbol, List.forall_mem_singleton]
  rfl

theorem inline_members {a : Extent} (inline : ends.Inline a.text) : ∀ b ∈ a.members, ends.Inline b.text := by
  unfold members
  split
  · exact Factor.inline_least.mp (inline_text.mp inline _ List.mem_cons_self)
  · intro b member
    rw [List.mem_singleton.mp member]
    exact inline

theorem inline_scaled {c : Int} {factors : List Factor} (each : ∀ f ∈ factors, ends.Inline f.profile.text) :
    ends.Inline (scaled c factors).text := by
  unfold scaled
  split
  · exact inline_ofInt 0
  · split
    · rename_i form
      have name : ends.Inline form.name := Profile.inline_sum.mp (each _ List.mem_cons_self)
      exact inline_text.mpr (List.forall_mem_singleton.mpr (Profile.inline_sum.mpr name))
    · exact inline_text.mpr each

theorem inline_product {extents : List Extent} (each : ∀ a ∈ extents, ends.Inline a.text) :
    ends.Inline (product extents).text := by
  apply inline_scaled
  intro f member
  obtain ⟨a, held, inner⟩ := List.mem_flatMap.mp (Ordered.mem_sort.mp member)
  exact inline_text.mp (each a held) f inner

theorem inline_least {extents : List Extent} (each : ∀ a ∈ extents, ends.Inline a.text) :
    ends.Inline (least extents).text := by
  have kept : ∀ b ∈ normalMembers extents, ends.Inline b.text := by
    intro b member
    obtain ⟨a, held, inner⟩ := List.mem_flatMap.mp (mem_normalMembers.mp member).1
    exact inline_members (each a held) b inner
  unfold least
  split
  · rename_i only single
    exact kept only (single ▸ List.mem_cons_self)
  · exact inline_text.mpr (List.forall_mem_singleton.mpr (Factor.inline_least.mpr kept))

end Extent

end TensorNetwork
