/-! Words that are read from the left. A code delimits itself if a word of it that begins
a longer one is known together with what follows it; so sequences of such words are taken
apart one by one. Words of a code that does not may be delimited by what stands behind
them. -/
namespace TensorNetwork.Delimited
variable {α β : Type}

/-- Words made of some items end where none of them follows. -/
theorem append_inj_of_stop {Inner : β → Prop} {x y u v : List β} (left : ∀ b ∈ x, Inner b) (right : ∀ b ∈ y, Inner b)
    (stop : ∀ b ∈ u.head?, ¬ Inner b) (stop' : ∀ b ∈ v.head?, ¬ Inner b) (same : x ++ u = y ++ v) :
    x = y ∧ u = v := by
  induction x generalizing y with
  | nil =>
    cases y with
    | nil => exact ⟨rfl, same⟩
    | cons b y =>
      rw [List.nil_append] at same
      exact absurd (right b List.mem_cons_self) (stop b (by simp [same]))
  | cons a x ih =>
    cases y with
    | nil =>
      rw [List.nil_append] at same
      exact absurd (left a List.mem_cons_self) (stop' a (by simp [← same]))
    | cons b y =>
      obtain ⟨rfl, tail⟩ := List.cons.inj same
      obtain ⟨rfl, rest⟩ := ih (fun c member => left c (List.mem_cons_of_mem _ member))
        (fun c member => right c (List.mem_cons_of_mem _ member)) tail
      exact ⟨rfl, rest⟩

/-- As many words that delimit themselves are taken apart word by word. -/
theorem flatMap_append_inj {code : α → List β} {l r : List α} {u v : List β}
    (each : ∀ a ∈ l, ∀ b ∈ r, ∀ u v, code a ++ u = code b ++ v → a = b ∧ u = v) (lengths : l.length = r.length)
    (same : l.flatMap code ++ u = r.flatMap code ++ v) : l = r ∧ u = v := by
  induction l generalizing r with
  | nil =>
    cases List.eq_nil_of_length_eq_zero lengths.symm
    exact ⟨rfl, same⟩
  | cons a l ih =>
    cases r with
    | nil => cases lengths
    | cons b r =>
      simp only [List.flatMap_cons, List.append_assoc] at same
      obtain ⟨rfl, rest⟩ := each a List.mem_cons_self b List.mem_cons_self _ _ same
      obtain ⟨rfl, rfl⟩ := ih (fun x here y there => each x (List.mem_cons_of_mem _ here) y
        (List.mem_cons_of_mem _ there)) (Nat.succ.inj lengths) rest
      exact ⟨rfl, rfl⟩

end TensorNetwork.Delimited
