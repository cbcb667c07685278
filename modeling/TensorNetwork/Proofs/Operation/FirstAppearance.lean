import TensorNetwork.IntMap
import TensorNetwork.Proofs.Operation.Equivalence

/-! Labels numbered in one pass. A table holds the numbers of the labels that have
appeared; a label that is not in it gets the size of the table for its number. After any
labels the table holds their places among the distinct ones, so a contraction whose axes
are numbered in this way, and whose kept labels are looked up in the end, is its canonical
form, or the same label is refused. -/
namespace TensorNetwork

/-- The number of a label, which is a new one if the label has not appeared. -/
def number (label : Label) : StateM (IntMap Label) Label := fun numbers =>
  match numbers.get? label with
  | some known => (known, numbers)
  | none => (numbers.size, numbers.insert label numbers.size)

/-- The axes of the operands, numbered in order. -/
def numberAxes (subscripts : List (List Label)) : StateM (IntMap Label) (List (List Label)) :=
  subscripts.mapM (List.mapM number)

/-- The number of a kept label, which must have appeared. -/
def knownNumber (numbers : IntMap Label) (label : Label) : Except Error Label :=
  match numbers.get? label with
  | some known => .ok known
  | none => .error (.unboundLabel label)

def Contraction.numbered (c : Contraction) : Except Error Contraction := do
  let (subscripts, numbers) := (numberAxes c.subscripts).run .empty
  let kept ← c.kept.mapM (knownNumber numbers)
  make c.inputs subscripts kept c.output

theorem IntMap.size_insert {α : Type} {m : IntMap α} {key : Int} (absent : m.get? key = none) (value : α) :
    (m.insert key value).size = m.size + 1 := by
  have placed : ∀ l : List (Int × α), lookup key l = none → (place key value l).length = l.length + 1 := by
    intro l missing
    induction l with
    | nil => rfl
    | cons head tail ih =>
      have apart : head.1 ≠ key := fun same => by simp [lookup, same] at missing
      have later : lookup key tail = none := by simpa [lookup, apart] using missing
      unfold place
      split
      · rfl
      · rw [if_neg apart.symm, List.length_cons, ih later, List.length_cons]
  exact placed m.entries absent

/-- A table holds the places of the labels that have appeared, and no others. -/
structure Numbers (seen : List Label) (numbers : IntMap Label) : Prop where
  size : numbers.size = seen.eraseDups.length
  get : ∀ label, numbers.get? label =
    if label ∈ seen then some (canonicalLabel seen.eraseDups label) else none

theorem numbers_empty : Numbers [] .empty := ⟨rfl, fun _ => rfl⟩

/-- Labels that have appeared keep their places when others appear. -/
theorem canonicalLabel_append {seen : List Label} {label : Label} (held : label ∈ seen) (later : List Label) :
    canonicalLabel (seen ++ later).eraseDups label = canonicalLabel seen.eraseDups label := by
  rw [canonicalLabel, canonicalLabel, List.eraseDups_append,
    List.idxOf_append_of_mem (List.mem_eraseDups.mpr held)]

/-- The place of a label that appears for the first time. -/
theorem canonicalLabel_new {seen : List Label} {label : Label} (new : label ∉ seen) :
    canonicalLabel (seen ++ [label]).eraseDups label = seen.eraseDups.length := by
  have unlisted : label ∉ seen.eraseDups := fun listed => new (List.mem_eraseDups.mp listed)
  rw [canonicalLabel, eraseDups_concat, if_neg new, List.idxOf_append_of_notMem unlisted, List.idxOf_cons_self]
  rfl

theorem Numbers.insert {seen : List Label} {numbers : IntMap Label} (known : Numbers seen numbers)
    {label : Label} (new : label ∉ seen) : Numbers (seen ++ [label]) (numbers.insert label numbers.size) where
  size := by
    have absent : numbers.get? label = none := (known.get label).trans (if_neg new)
    rw [IntMap.size_insert absent, known.size, eraseDups_concat, if_neg new, List.length_append]
    rfl
  get other := by
    rw [IntMap.get?_insert]
    by_cases same : label = other
    · subst same
      rw [if_pos rfl, if_pos (List.mem_append_right _ List.mem_cons_self), canonicalLabel_new new, known.size]
    · rw [if_neg same, known.get]
      by_cases held : other ∈ seen
      · rw [if_pos held, if_pos (List.mem_append_left _ held), canonicalLabel_append held]
      · have unheld : other ∉ seen ++ [label] := by simp [held, Ne.symm same]
        rw [if_neg held, if_neg unheld]

/-- A pass over some labels finds what is made of their numbers, which are their places
among all labels so far. -/
structure Assigns {α : Type} (pass : StateM (IntMap Label) α) (labels : List Label)
    (result : (Label → Label) → α) : Prop where
  result_congr : ∀ f g : Label → Label, (∀ label ∈ labels, f label = g label) → result f = result g
  run : ∀ {seen : List Label} {numbers : IntMap Label}, Numbers seen numbers →
    ∃ after, pass.run numbers = (result (canonicalLabel (seen ++ labels).eraseDups), after) ∧
      Numbers (seen ++ labels) after

theorem number_assigns (label : Label) : Assigns (number label) [label] fun rename => rename label where
  result_congr _ _ same := same label List.mem_cons_self
  run {seen numbers} known := by
    by_cases held : label ∈ seen
    · have found : numbers.get? label = some (canonicalLabel seen.eraseDups label) :=
        (known.get label).trans (if_pos held)
      refine ⟨numbers, ?_, ?_, fun other => ?_⟩
      · simp only [StateT.run, number, found, canonicalLabel_append held]
      · rw [known.size, eraseDups_concat, if_pos held]
      · have listed : other ∈ seen ++ [label] ↔ other ∈ seen := by
          simp only [List.mem_append, List.mem_singleton, or_iff_left_iff_imp]
          rintro rfl
          exact held
        rw [known.get, eraseDups_concat, if_pos held]
        simp only [listed]
    · have absent : numbers.get? label = none := (known.get label).trans (if_neg held)
      refine ⟨_, ?_, known.insert held⟩
      simp only [StateT.run, number, absent, canonicalLabel_new held, known.size]

/-- Passes after each other make one pass over all their labels. -/
theorem Assigns.mapM {α β : Type} {pass : α → StateM (IntMap Label) β} {labels : α → List Label}
    {result : α → (Label → Label) → β} (each : ∀ a, Assigns (pass a) (labels a) (result a)) (items : List α) :
    Assigns (items.mapM pass) (items.flatMap labels) fun rename => items.map fun a => result a rename where
  result_congr f g same := List.map_congr_left fun a listed => (each a).result_congr f g fun label held =>
    same label (List.mem_flatMap_of_mem listed held)
  run {seen numbers} known := by
    induction items generalizing seen numbers with
    | nil => exact ⟨numbers, rfl, by simpa using known⟩
    | cons a rest ih =>
      obtain ⟨between, first, known'⟩ := (each a).run known
      obtain ⟨after, later, known''⟩ := ih known'
      rw [List.append_assoc] at later known''
      refine ⟨after, ?_, known''⟩
      -- The numbers that the first pass found are their numbers in the end.
      have kept : result a (canonicalLabel (seen ++ labels a).eraseDups) =
          result a (canonicalLabel (seen ++ (labels a ++ rest.flatMap labels)).eraseDups) := by
        refine (each a).result_congr _ _ fun label held => ?_
        rw [← List.append_assoc, canonicalLabel_append (List.mem_append_right _ held)]
      rw [List.mapM_cons, StateT.run_bind, first, kept]
      simp only [List.flatMap_cons, List.map_cons]
      change (do let (found, state) ← (rest.mapM pass).run between; pure (_ :: found, state) : Id _) = _
      rw [later]
      rfl

theorem numberAxes_assigns (subscripts : List (List Label)) :
    Assigns (numberAxes subscripts) subscripts.flatten fun rename => subscripts.map (List.map rename) := by
  have inner : ∀ labels : List Label, Assigns (labels.mapM number) labels fun rename => labels.map rename := by
    intro labels
    simpa using Assigns.mapM number_assigns labels
  rw [← List.flatMap_id]
  exact Assigns.mapM inner subscripts

/-- Looking up the kept labels refuses the first that has not appeared. -/
theorem mapM_knownNumber {seen : List Label} {numbers : IntMap Label} (known : Numbers seen numbers)
    (kept : List Label) :
    kept.mapM (knownNumber numbers) =
      match kept.find? fun label => !seen.eraseDups.contains label with
      | some label => .error (.unboundLabel label)
      | none => .ok (kept.map (canonicalLabel seen.eraseDups)) := by
  induction kept with
  | nil => rfl
  | cons label rest ih =>
    rw [List.mapM_cons, ih, knownNumber, known.get]
    by_cases held : label ∈ seen
    · have listed : seen.eraseDups.contains label = true :=
        List.contains_iff_mem.mpr (List.mem_eraseDups.mpr held)
      rw [if_pos held, List.find?_cons, listed]
      cases rest.find? fun label => !seen.eraseDups.contains label <;> rfl
    · have unlisted : seen.eraseDups.contains label = false :=
        Bool.eq_false_iff.mpr fun listed => held (List.mem_eraseDups.mp (List.contains_iff_mem.mp listed))
      rw [if_neg held, List.find?_cons, unlisted]
      rfl

/-- Numbering in one pass gives the canonical form of every contraction, and refuses
what has none with the same error. -/
theorem Contraction.numbered_eq_canonical (c : Contraction) : c.numbered = c.canonical := by
  obtain ⟨numbers, scanned, known⟩ := (numberAxes_assigns c.subscripts).run numbers_empty
  rw [List.nil_append, ← labels_eq_flatten] at scanned known
  unfold numbered canonical
  rw [scanned]
  dsimp only
  rw [mapM_knownNumber known]
  cases c.kept.find? fun label => !c.labels.eraseDups.contains label with
  | some label => rfl
  | none =>
    have some_inputs : c.inputs ≠ [] := fun empty => c.operands_nonempty (List.map_eq_nil_iff.mp empty)
    have paired : c.inputs.length = (c.subscripts.map (List.map (canonicalLabel c.labels.eraseDups))).length := by
      simp [inputs, subscripts]
    change make c.inputs _ _ _ = _
    rw [make, if_neg some_inputs, if_pos paired, inputs, subscripts, List.map_map]
    congr 1
    rw [List.zipWith_map, List.zipWith_self]
    rfl

end TensorNetwork
