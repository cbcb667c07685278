import Mathlib.Data.List.Forall2
import Mathlib.Data.Nat.Digits.Defs
import TensorNetwork.Proofs.Delimited
import TensorNetwork.Text.Listing

/-! Lines of text. Readers of text differ in what ends a line; whatever they choose, a text
without line ends stays on the line on which it is written, and a text with line ends adds
as many lines. -/
namespace TensorNetwork.Text

/-- The characters that end a line for some reader of text. The line feed is one of them,
and none of them is printed. -/
structure LineEnds where
  isEnd : Char → Bool
  feed : isEnd '\n' = true
  hidden : ∀ c, isEnd c = true → c.toNat < 32 ∨ 126 < c.toNat

/-- Characters that every reader prints. -/
def isPrinted (c : Char) : Bool := 32 ≤ c.toNat && c.toNat ≤ 126

/-- A line as it is, or with a comment after it. -/
def Remarks (line remarked : String) : Prop :=
  remarked = line ∨ ∃ comment, remarked = line ++ "  # " ++ comment

namespace LineEnds

def lines (ends : LineEnds) (text : String) : List String :=
  (text.toList.splitOnP ends.isEnd).map String.ofList

/-- How many line ends a text holds. -/
def endCount (ends : LineEnds) (text : String) : Nat := text.toList.countP ends.isEnd

/-- A text that stays on its line. -/
def Inline (ends : LineEnds) (text : String) : Prop := ∀ c ∈ text.toList, ends.isEnd c = false

/-- Texts with the same lines but for comments at their ends. -/
def Annotates (ends : LineEnds) (plain annotated : String) : Prop :=
  List.Forall₂ Remarks (ends.lines plain) (ends.lines annotated)

/-- Lines that end at line feeds and nowhere else. -/
def feeds : LineEnds where
  isEnd c := c == '\n'
  feed := rfl
  hidden := by
    intro c ending
    rw [beq_iff_eq.mp ending]
    exact .inl (by decide)

variable {ends : LineEnds} {a b : String}

theorem inline_iff : ends.Inline a ↔ ends.endCount a = 0 := by
  rw [Inline, endCount, List.countP_eq_zero]
  simp

theorem inline_append : ends.Inline (a ++ b) ↔ ends.Inline a ∧ ends.Inline b := by
  simp only [Inline, String.toList_append, List.mem_append]
  constructor
  · exact fun both => ⟨fun c held => both c (.inl held), fun c held => both c (.inr held)⟩
  · exact fun both c held => held.elim (both.1 c) (both.2 c)

theorem inline_of_printed (printed : a.toList.all isPrinted = true) : ends.Inline a := by
  intro c held
  have shown := List.all_eq_true.mp printed c held
  simp only [isPrinted, Bool.and_eq_true, decide_eq_true_eq] at shown
  apply Bool.eq_false_iff.mpr
  intro ending
  have := ends.hidden c ending
  omega

theorem inline_digits (n : Nat) : ends.Inline n.repr := by
  apply inline_of_printed
  rw [List.all_eq_true]
  intro c held
  rw [Nat.toList_repr] at held
  have digit := Char.isDigit_iff_toNat.mp (Nat.isDigit_of_mem_toDigits (by decide) (by decide) held)
  have zero : '0'.toNat = 48 := rfl
  have nine : '9'.toNat = 57 := rfl
  simp only [isPrinted, Bool.and_eq_true, decide_eq_true_eq]
  omega

theorem inline_nat (n : Nat) : ends.Inline (toString n) := inline_digits n

theorem inline_int (n : Int) : ends.Inline (toString n) := by
  rw [Int.toString_eq_repr, Int.repr_eq_if]
  split
  · exact inline_digits _
  · exact inline_append.mpr ⟨inline_of_printed (by decide), inline_digits _⟩

theorem inline_intercalate {separator : String} {items : List String} (apart : ends.Inline separator) :
    ends.Inline (separator.intercalate items) ↔ ∀ item ∈ items, ends.Inline item := by
  induction items with
  | nil =>
    rw [String.intercalate_nil]
    exact ⟨fun _ _ member => (List.not_mem_nil member).elim, fun _ => inline_of_printed (by decide)⟩
  | cons first rest ih =>
    rw [List.forall_mem_cons]
    cases rest with
    | nil => simp [String.intercalate_singleton]
    | cons second others =>
      rw [String.intercalate_cons_cons, inline_append, inline_append, ih]
      exact ⟨fun all => ⟨all.1.1, all.2⟩, fun all => ⟨⟨all.1, apart⟩, all.2⟩⟩

theorem inline_commaSeparated {items : List String} :
    ends.Inline (commaSeparated items) ↔ ∀ item ∈ items, ends.Inline item :=
  inline_intercalate (inline_of_printed (by decide))

theorem inline_enclosed {opening closing : String} (opened : opening.toList.all isPrinted = true)
    (closed : closing.toList.all isPrinted = true) (inline : ends.Inline a) : ends.Inline (opening ++ a ++ closing) :=
  inline_append.mpr ⟨inline_append.mpr ⟨inline_of_printed opened, inline⟩, inline_of_printed closed⟩

theorem inline_tuple {items : List String} (each : ∀ item ∈ items, ends.Inline item) :
    ends.Inline (Text.tuple items) := by
  unfold Text.tuple
  split
  · rename_i item
    exact inline_enclosed (by decide) (by decide) (each item List.mem_cons_self)
  · exact inline_enclosed (by decide) (by decide) (inline_commaSeparated.mpr each)

theorem inline_bracketedInts (values : List Int) : ends.Inline (bracketedInts values) := by
  have each : ∀ item ∈ values.map toString, ends.Inline item := List.forall_mem_map.mpr fun value _ => inline_int value
  exact inline_enclosed (by decide) (by decide) (inline_commaSeparated.mpr each)

theorem endCount_append (a b : String) : ends.endCount (a ++ b) = ends.endCount a + ends.endCount b := by
  rw [endCount, String.toList_append, List.countP_append]
  rfl

theorem length_lines (text : String) : (ends.lines text).length = ends.endCount text + 1 := by
  rw [lines, List.length_map, endCount]
  induction text.toList with
  | nil => rfl
  | cons c rest ih =>
    rw [List.splitOnP_cons_eq_if_modifyHead, List.countP_cons]
    split
    · rw [List.length_cons, ih]
    · rw [List.length_modifyHead, ih]

/-- A line feed parts the lines before it from those after it. -/
theorem lines_feed (a b : String) : ends.lines (a ++ "\n" ++ b) = ends.lines a ++ ends.lines b := by
  have letters : (a ++ "\n" ++ b).toList = a.toList ++ '\n' :: b.toList := by
    simp [String.toList_append]
  rw [lines, letters, List.splitOnP_append_cons _ _ ends.feed, List.map_append]
  rfl

theorem lines_of_inline (inline : ends.Inline a) : ends.lines a = [a] := by
  rw [lines, List.splitOnP_eq_singleton inline, List.map_singleton, String.ofList_toList]

/-- Items with line feeds between them have their lines one after the other. -/
theorem lines_intercalate {items : List String} (nonempty : items ≠ []) :
    ends.lines ("\n".intercalate items) = items.flatMap ends.lines := by
  induction items with
  | nil => exact absurd rfl nonempty
  | cons first rest ih =>
    cases rest with
    | nil => rw [String.intercalate_singleton, List.flatMap_singleton]
    | cons second others =>
      rw [String.intercalate_cons_cons, lines_feed, List.flatMap_cons, ih (List.cons_ne_nil second others)]

/-- A line ends at the first line feed. -/
theorem inline_delimited {u v : String} (here : ends.Inline a) (there : ends.Inline b)
    (same : a ++ ("\n" ++ u) = b ++ ("\n" ++ v)) : a = b ∧ u = v := by
  have letters : a.toList ++ '\n' :: u.toList = b.toList ++ '\n' :: v.toList := by
    simpa [← String.toList_inj] using same
  have feed : ∀ rest : List Char, ∀ c ∈ ('\n' :: rest).head?, ¬ ends.isEnd c = false := by simp [ends.feed]
  obtain ⟨line, rest⟩ := Delimited.append_inj_of_stop here there (feed _) (feed _) letters
  exact ⟨String.toList_injective line, String.toList_injective (List.cons.inj rest).2⟩

theorem splitOnP_append {p : Char → Bool} {more : List Char} (free : ∀ c ∈ more, p c = false)
    (letters : List Char) :
    ∃ front last, letters.splitOnP p = front ++ [last] ∧ (letters ++ more).splitOnP p = front ++ [last ++ more] := by
  induction letters with
  | nil => exact ⟨[], [], List.splitOnP_nil, List.splitOnP_eq_singleton free⟩
  | cons c rest ih =>
    obtain ⟨front, last, before, after⟩ := ih
    rw [List.cons_append, List.splitOnP_cons_eq_if_modifyHead, List.splitOnP_cons_eq_if_modifyHead, before, after]
    split
    · exact ⟨[] :: front, last, rfl, rfl⟩
    · -- The character joins the first line, which may be the last one too.
      cases front with
      | nil => exact ⟨[], c :: last, rfl, rfl⟩
      | cons first others => exact ⟨(c :: first) :: others, last, rfl, rfl⟩

/-- A text that stays on its line lengthens the last line. -/
theorem lines_inline (a : String) (inline : ends.Inline b) :
    ∃ front last, ends.lines a = front ++ [last] ∧ ends.lines (a ++ b) = front ++ [last ++ b] := by
  obtain ⟨front, last, before, after⟩ := splitOnP_append inline a.toList
  refine ⟨front.map String.ofList, String.ofList last, ?_, ?_⟩
  · rw [lines, before, List.map_append]
    rfl
  · rw [lines, String.toList_append, after, List.map_append, List.map_singleton, String.ofList_append,
      String.ofList_toList]

theorem annotates_refl (text : String) : ends.Annotates text text :=
  List.forall₂_same.mpr fun _ _ => .inl rfl

theorem Annotates.feed {c d : String} (first : ends.Annotates a b) (second : ends.Annotates c d) :
    ends.Annotates (a ++ "\n" ++ c) (b ++ "\n" ++ d) := by
  rw [Annotates, lines_feed, lines_feed]
  exact List.rel_append first second

/-- A line feed at the end of both texts tells nothing. -/
theorem annotates_feed_iff : ends.Annotates (a ++ "\n") (b ++ "\n") ↔ ends.Annotates a b := by
  have closed : ∀ text, text ++ "\n" = text ++ "\n" ++ "" := fun _ => String.append_empty.symm
  rw [closed a, closed b]
  refine ⟨fun annotates => ?_, fun annotates => annotates.feed (annotates_refl "")⟩
  rw [Annotates, lines_feed, lines_feed] at annotates
  have lengths := annotates.length_eq
  rw [List.length_append, List.length_append, Nat.add_right_cancel_iff] at lengths
  have front := List.forall₂_take_append _ _ _ annotates
  rwa [← lengths, List.take_left] at front

theorem annotates_comment {comment : String} (inline : ends.Inline comment) (text : String) :
    ends.Annotates text (text ++ "  # " ++ comment) := by
  have marked : ends.Inline ("  # " ++ comment) := inline_append.mpr ⟨inline_of_printed (by decide), inline⟩
  obtain ⟨front, last, before, after⟩ := lines_inline text marked
  rw [Annotates, String.append_assoc, before, after]
  refine List.rel_append (List.forall₂_same.mpr fun _ _ => .inl rfl) (.cons (.inr ⟨comment, ?_⟩) .nil)
  rw [String.append_assoc]

/-- Texts with different numbers of line ends are not told apart by comments alone. -/
theorem Annotates.endCount_eq (annotates : ends.Annotates a b) : ends.endCount a = ends.endCount b := by
  have same := annotates.length_eq
  rw [length_lines, length_lines] at same
  exact Nat.succ.inj same

end LineEnds
end TensorNetwork.Text
