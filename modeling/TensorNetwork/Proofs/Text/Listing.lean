import TensorNetwork.Proofs.Delimited
import TensorNetwork.Proofs.Names
import TensorNetwork.Text.Listing

/-! Written numbers are read back. A number ends where neither a digit nor a sign follows,
and a listing ends with its bracket, so that both are known together with the text behind
them; so are listings of whatever can be read back itself. The comma behind a single item
tells it from the first of several. -/
namespace TensorNetwork.Text
variable {α : Type}

/-- The characters that numbers are written with. -/
def isNumeric (c : Char) : Bool := c.isDigit || c == '-'

/-- A text with which no number goes on. -/
def Stops (text : String) : Prop := ∀ c ∈ text.toList.head?, ¬ isNumeric c = true

theorem numeric_digits (n : Nat) : ∀ c ∈ n.repr.toList, isNumeric c = true := by
  intro c held
  rw [Nat.toList_repr] at held
  simp [isNumeric, Nat.isDigit_of_mem_toDigits (by decide) (by decide) held]

theorem numeric_int (n : Int) : ∀ c ∈ (toString n).toList, isNumeric c = true := by
  rw [Int.toString_eq_repr, Int.repr_eq_if]
  split
  · exact numeric_digits _
  · intro c held
    rw [String.toList_append, List.mem_append] at held
    rcases held with sign | digit
    · rw [List.mem_singleton.mp sign]
      rfl
    · exact numeric_digits _ c digit

theorem int_ne_empty (n : Int) : (toString n).toList ≠ [] := by
  rw [Int.toString_eq_repr, Int.repr_eq_if]
  split
  · rw [Nat.toList_repr]
    exact Nat.toDigits_ne_nil
  · simp

theorem not_stops_int (n : Int) (text : String) : ¬ Stops (toString n ++ text) := by
  intro stops
  obtain ⟨c, rest, letters⟩ := List.exists_cons_of_ne_nil (int_ne_empty n)
  apply stops c
  · rw [String.toList_append, letters]
    rfl
  · apply numeric_int n
    rw [letters]
    exact List.mem_cons_self

theorem int_delimited {a b : Int} {u v : String} (here : Stops u) (there : Stops v)
    (same : toString a ++ u = toString b ++ v) : a = b ∧ u = v := by
  have letters := congrArg String.toList same
  rw [String.toList_append, String.toList_append] at letters
  obtain ⟨number, rest⟩ := Delimited.append_inj_of_stop (numeric_int a) (numeric_int b) here there letters
  exact ⟨toString_int_injective (String.toList_injective number), String.toList_injective rest⟩

/-- A number is read up to a separator. -/
theorem int_separated {a b : Int} {separator u v : String}
    (stop : separator.toList.head?.any (fun c => !isNumeric c) = true)
    (same : toString a ++ (separator ++ u) = toString b ++ (separator ++ v)) : a = b ∧ u = v := by
  have stops : ∀ text, Stops (separator ++ text) := by
    intro text
    cases letters : separator.toList with
    | nil => simp [letters] at stop
    | cons c rest => simpa [Stops, letters] using stop
  obtain ⟨number, rest⟩ := int_delimited (stops u) (stops v) same
  exact ⟨number, (String.append_right_inj _).mp rest⟩

/-- Items that are known together with what follows them, wherever that ends them. -/
structure Listable (code : α → String) (Ends : String → Prop) : Prop where
  delimited : ∀ {a b : α} {u v : String}, Ends u → Ends v → code a ++ u = code b ++ v → a = b ∧ u = v
  ends : ∀ {text : String}, text.toList.head? ∈ [some ',', some ')', some ']'] → Ends text
  opens : ∀ (a : α) (text : String), (code a ++ text).toList.head? ∉ [some ')', some ']']

/-- A text with which no listing goes on, be it begun or not. -/
structure Closes (code : α → String) (Ends : String → Prop) (text : String) : Prop where
  ends : Ends text
  comma : text.toList.head? ≠ some ','
  apart : ∀ (a : α) (rest : String), text ≠ code a ++ rest

/-- The items of a listing behind its first one. -/
def following : List String → String
  | [] => ""
  | item :: rest => ", " ++ item ++ following rest

theorem commaSeparated_cons (item : String) (rest : List String) :
    commaSeparated (item :: rest) = item ++ following rest := by
  rw [commaSeparated]
  induction rest generalizing item with
  | nil => rw [String.intercalate_singleton, following, String.append_empty]
  | cons next rest ih => rw [String.intercalate_cons_cons, ih, following, String.append_assoc, String.append_assoc]

/-- What stands behind the first item between round brackets. -/
def ending : List String → String
  | [] => ",)"
  | items => following items ++ ")"

theorem tuple_nil : tuple [] = "(" ++ ")" := by
  rw [tuple, commaSeparated, String.intercalate_nil, String.append_empty]
  simp

theorem tuple_cons (item : String) (rest : List String) : tuple (item :: rest) = "(" ++ (item ++ ending rest) := by
  cases rest with
  | nil => simp only [tuple, ending, String.append_assoc]
  | cons next rest => simp only [tuple, commaSeparated_cons, ending, String.append_assoc]

theorem head_tuple (items : List String) (text : String) : (tuple items ++ text).toList.head? = some '(' := by
  cases items with
  | nil => simp [tuple_nil]
  | cons item rest => simp [tuple_cons]

variable {code : α → String} {Ends : String → Prop} {xs ys : List α} {u v : String}

theorem Closes.ne_following (closes : Closes code Ends u) (item : String) (rest : List String) (further : String) :
    u ≠ following (item :: rest) ++ further := by
  rintro rfl
  exact closes.comma (by simp [following])

namespace Listable

theorem closes_round (items : Listable code Ends) (text : String) : Closes code Ends (")" ++ text) where
  ends := items.ends (by simp)
  comma := by simp
  apart a rest same := items.opens a rest (by simp [← same])

theorem closes_square (items : Listable code Ends) (text : String) : Closes code Ends ("]" ++ text) where
  ends := items.ends (by simp)
  comma := by simp
  apart a rest same := items.opens a rest (by simp [← same])

theorem ends_following (items : Listable code Ends) (closes : Closes code Ends u) (rest : List String) :
    Ends (following rest ++ u) := by
  cases rest with
  | nil => simpa [following] using closes.ends
  | cons next rest => exact items.ends (by simp [following])

theorem ends_ending (items : Listable code Ends) (rest : List String) (text : String) : Ends (ending rest ++ text) := by
  apply items.ends
  cases rest with
  | nil => simp [ending]
  | cons next rest => simp [ending, following]

/-- The items behind the first one end where their listing is closed. -/
theorem following_delimited (items : Listable code Ends) (here : Closes code Ends u) (there : Closes code Ends v)
    (same : following (xs.map code) ++ u = following (ys.map code) ++ v) : xs = ys ∧ u = v := by
  induction xs generalizing ys with
  | nil =>
    cases ys with
    | nil => exact ⟨rfl, (String.append_right_inj _).mp same⟩
    | cons y ys => exact absurd (String.empty_append ▸ same) (here.ne_following _ _ _)
  | cons x xs ih =>
    cases ys with
    | nil => exact absurd (String.empty_append ▸ same.symm) (there.ne_following _ _ _)
    | cons y ys =>
      simp only [List.map_cons, following, String.append_assoc, String.append_right_inj] at same
      obtain ⟨rfl, rest⟩ := items.delimited (items.ends_following here _) (items.ends_following there _) same
      obtain ⟨rfl, rfl⟩ := ih rest
      exact ⟨rfl, rfl⟩

theorem commaSeparated_delimited (items : Listable code Ends) (here : Closes code Ends u) (there : Closes code Ends v)
    (same : commaSeparated (xs.map code) ++ u = commaSeparated (ys.map code) ++ v) : xs = ys ∧ u = v := by
  have empty : commaSeparated [] = "" := String.intercalate_nil
  cases xs with
  | nil =>
    cases ys with
    | nil => exact ⟨rfl, (String.append_right_inj _).mp same⟩
    | cons y ys =>
      simp only [List.map_nil, empty, String.empty_append, List.map_cons, commaSeparated_cons,
        String.append_assoc] at same
      exact absurd same (here.apart _ _)
  | cons x xs =>
    cases ys with
    | nil =>
      simp only [List.map_nil, empty, String.empty_append, List.map_cons, commaSeparated_cons,
        String.append_assoc] at same
      exact absurd same.symm (there.apart _ _)
    | cons y ys =>
      simp only [List.map_cons, commaSeparated_cons, String.append_assoc] at same
      obtain ⟨rfl, rest⟩ := items.delimited (items.ends_following here _) (items.ends_following there _) same
      obtain ⟨rfl, rfl⟩ := items.following_delimited here there rest
      exact ⟨rfl, rfl⟩

theorem bracketed_delimited (items : Listable code Ends)
    (same : bracketed (xs.map code) ++ u = bracketed (ys.map code) ++ v) : xs = ys ∧ u = v := by
  simp only [bracketed, String.append_assoc, String.append_right_inj] at same
  obtain ⟨rfl, rest⟩ := items.commaSeparated_delimited (items.closes_square u) (items.closes_square v) same
  exact ⟨rfl, (String.append_right_inj _).mp rest⟩

theorem ending_delimited (items : Listable code Ends)
    (same : ending (xs.map code) ++ u = ending (ys.map code) ++ v) : xs = ys ∧ u = v := by
  -- The comma behind a single item is followed by the bracket, any other by a blank.
  cases xs with
  | nil =>
    cases ys with
    | nil => exact ⟨rfl, (String.append_right_inj _).mp same⟩
    | cons y ys => simp [ending, following, ← String.toList_inj] at same
  | cons x xs =>
    cases ys with
    | nil => simp [ending, following, ← String.toList_inj] at same
    | cons y ys =>
      simp only [List.map_cons, ending, String.append_assoc] at same
      rw [← List.map_cons, ← List.map_cons] at same
      obtain ⟨equal, rest⟩ := items.following_delimited (items.closes_round u) (items.closes_round v) same
      exact ⟨equal, (String.append_right_inj _).mp rest⟩

theorem tuple_delimited (items : Listable code Ends)
    (same : tuple (xs.map code) ++ u = tuple (ys.map code) ++ v) : xs = ys ∧ u = v := by
  have filled : ∀ z (zs : List α) w w', tuple [] ++ w ≠ tuple ((z :: zs).map code) ++ w' := by
    intro z zs w w' equal
    simp only [List.map_cons, tuple_nil, tuple_cons, String.append_assoc, String.append_right_inj] at equal
    exact (items.closes_round w).apart _ _ equal
  cases xs with
  | nil =>
    cases ys with
    | nil => exact ⟨rfl, (String.append_right_inj _).mp same⟩
    | cons y ys => exact absurd same (filled y ys u v)
  | cons x xs =>
    cases ys with
    | nil => exact absurd same.symm (filled x xs v u)
    | cons y ys =>
      simp only [List.map_cons, tuple_cons, String.append_assoc, String.append_right_inj] at same
      obtain ⟨rfl, rest⟩ := items.delimited (items.ends_ending _ _) (items.ends_ending _ _) same
      obtain ⟨rfl, rfl⟩ := items.ending_delimited rest
      exact ⟨rfl, rfl⟩

end Listable

theorem stops_of_closing {text : String} (closing : text.toList.head? ∈ [some ',', some ')', some ']']) :
    Stops text := by
  simp only [List.mem_cons, List.not_mem_nil, or_false] at closing
  rcases closing with first | first | first <;> simp [Stops, first, isNumeric]

theorem listable_int : Listable (toString : Int → String) Stops where
  delimited := int_delimited
  ends := stops_of_closing
  opens a text closing := not_stops_int a text (stops_of_closing (List.mem_cons_of_mem _ closing))

/-- Numbers between square brackets are known together with what follows them. -/
theorem bracketedInts_delimited {xs ys : List Int} {u v : String}
    (same : bracketedInts xs ++ u = bracketedInts ys ++ v) : xs = ys ∧ u = v :=
  listable_int.bracketed_delimited same

/-- Numbers between round brackets are known together with what follows them. -/
theorem intTuple_delimited {xs ys : List Int} {u v : String} (same : intTuple xs ++ u = intTuple ys ++ v) :
    xs = ys ∧ u = v :=
  listable_int.tuple_delimited same

theorem listable_intTuple : Listable intTuple fun _ => True where
  delimited _ _ same := intTuple_delimited same
  ends _ := trivial
  opens values text := by
    rw [intTuple, head_tuple]
    decide

end TensorNetwork.Text
