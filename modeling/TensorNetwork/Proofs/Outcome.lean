import Mathlib.Data.List.Forall2
import Mathlib.Data.List.Induction
import Mathlib.Data.List.Perm.Basic

/-! Computations that may fail. A success is taken apart into the successes that
it was made of. -/
namespace TensorNetwork.Outcome
variable {ε α β σ : Type}

theorem bind_eq_ok {x : Except ε α} {f : α → Except ε β} {b : β} :
    (x >>= f) = .ok b ↔ ∃ a, x = .ok a ∧ f a = .ok b := by
  cases x <;> simp [bind, Except.bind]

theorem bind_eq_error {x : Except ε α} {f : α → Except ε β} {e : ε} :
    (x >>= f) = .error e ↔ x = .error e ∨ ∃ a, x = .ok a ∧ f a = .error e := by
  cases x <;> simp [bind, Except.bind]

theorem map_eq_ok {x : Except ε α} {f : α → β} {b : β} :
    x.map f = .ok b ↔ ∃ a, x = .ok a ∧ f a = b := by
  cases x <;> simp [Except.map]

theorem map_eq_error {x : Except ε α} {f : α → β} {e : ε} : x.map f = .error e ↔ x = .error e := by
  cases x <;> simp [Except.map]

theorem exists_of_forall₂ {R : α → β → Prop} {l : List α} {r : List β} (related : List.Forall₂ R l r) {a : α}
    (member : a ∈ l) : ∃ b ∈ r, R a b := by
  induction related with
  | nil => cases member
  | cons head _ ih =>
    rcases List.mem_cons.mp member with rfl | later
    · exact ⟨_, List.mem_cons_self, head⟩
    · obtain ⟨b, found, holds⟩ := ih later
      exact ⟨b, List.mem_cons_of_mem _ found, holds⟩

/-- A list that is given member by member through a function. -/
theorem eq_map_of_forall₂ {f : α → β} {l : List α} {r : List β}
    (each : List.Forall₂ (fun a b => f a = b) l r) : r = l.map f := by
  induction each with
  | nil => rfl
  | cons head _ ih => rw [List.map_cons, head, ← ih]

/-- A traversal succeeds where every member does. -/
theorem mapM_eq_ok {f : α → Except ε β} {l : List α} {r : List β} :
    l.mapM f = .ok r ↔ List.Forall₂ (fun a b => f a = .ok b) l r := by
  induction l generalizing r with
  | nil => cases r <;> simp [pure, Except.pure]
  | cons a rest ih =>
    rw [List.mapM_cons, bind_eq_ok]
    constructor
    · rintro ⟨b, head, tail⟩
      obtain ⟨bs, others, done⟩ := bind_eq_ok.mp tail
      cases done
      exact .cons head (ih.mp others)
    · intro all
      cases all with
      | cons head others => exact ⟨_, head, bind_eq_ok.mpr ⟨_, ih.mpr others, rfl⟩⟩

theorem mapM_perm {f : α → Except ε β} {l l' : List α} {r : List β} (perm : l.Perm l')
    (run : l.mapM f = .ok r) : ∃ r', r.Perm r' ∧ l'.mapM f = .ok r' := by
  obtain ⟨r', all, moved⟩ := List.perm_comp_forall₂ perm.symm (mapM_eq_ok.mp run)
  exact ⟨r', moved.symm, mapM_eq_ok.mpr all⟩

theorem mem_of_mapM {f : α → Except ε β} {l : List α} {r : List β} (run : l.mapM f = .ok r) {b : β}
    (member : b ∈ r) : ∃ a ∈ l, f a = .ok b :=
  exists_of_forall₂ (mapM_eq_ok.mp run).flip member

theorem ok_of_mapM {f : α → Except ε β} {l : List α} {r : List β} (run : l.mapM f = .ok r) {a : α}
    (member : a ∈ l) : ∃ b, f a = .ok b := by
  obtain ⟨b, -, done⟩ := exists_of_forall₂ (mapM_eq_ok.mp run) member
  exact ⟨b, done⟩

theorem mapM_total {f : α → Except ε β} {l : List α} (total : ∀ a ∈ l, ∃ b, f a = .ok b) :
    ∃ r, l.mapM f = .ok r := by
  induction l with
  | nil => exact ⟨[], rfl⟩
  | cons a rest ih =>
    obtain ⟨b, head⟩ := total a List.mem_cons_self
    obtain ⟨bs, others⟩ := ih fun x member => total x (List.mem_cons_of_mem _ member)
    exact ⟨b :: bs, mapM_eq_ok.mpr (.cons head (mapM_eq_ok.mp others))⟩

/-- A traversal that fails does so at one of the members. -/
theorem mapM_error {f : α → Except ε β} {l : List α} {e : ε} (refused : l.mapM f = .error e) :
    ∃ a ∈ l, f a = .error e := by
  induction l with
  | nil => cases refused
  | cons a rest ih =>
    rw [List.mapM_cons] at refused
    rcases bind_eq_error.mp refused with here | ⟨b, -, later⟩
    · exact ⟨a, List.mem_cons_self, here⟩
    · rcases bind_eq_error.mp later with there | ⟨bs, -, done⟩
      · obtain ⟨x, member, failed⟩ := ih there
        exact ⟨x, List.mem_cons_of_mem _ member, failed⟩
      · cases done

/-- Traversals correspond that correspond at every member, also where they fail. -/
theorem mapM_map {γ : Type} {f : α → Except ε β} {g : α → Except ε γ} {h : β → γ} {l : List α}
    (each : ∀ a ∈ l, g a = (f a).map h) : l.mapM g = (l.mapM f).map (List.map h) := by
  induction l with
  | nil => rfl
  | cons a rest ih =>
    have later := ih fun x member => each x (List.mem_cons_of_mem _ member)
    rw [List.mapM_cons, List.mapM_cons, each a List.mem_cons_self, later]
    cases f a with
    | error e => rfl
    | ok b => cases rest.mapM f <;> rfl

/-- What holds at the start and is kept by every step holds of a whole run. The
property may speak of the members already passed. -/
theorem foldlM_induction {f : σ → α → Except ε σ} {P : List α → σ → Prop} {start final : σ}
    {l : List α} (initial : P [] start)
    (step : ∀ before a after s next, l = before ++ a :: after → P before s → f s a = .ok next →
      P (before ++ [a]) next)
    (run : l.foldlM f start = .ok final) : P l final := by
  have prefixes : ∀ before after s, l = before ++ after → before.foldlM f start = .ok s → P before s := by
    intro before
    induction before using List.reverseRecOn with
    | nil =>
      intro after s _ done
      cases done
      exact initial
    | append_singleton before a ih =>
      intro after s split done
      rw [List.foldlM_append, bind_eq_ok] at done
      obtain ⟨middle, first, last⟩ := done
      rw [List.foldlM_cons, bind_eq_ok] at last
      obtain ⟨next, stepped, done⟩ := last
      cases done
      have regrouped : l = before ++ a :: after := by simpa using split
      exact step before a after middle _ regrouped (ih (a :: after) middle regrouped first) stepped
  exact prefixes l [] final (List.append_nil l).symm run

/-- A run that fails does so at one of its steps. -/
theorem foldlM_error {f : σ → α → Except ε σ} {l : List α} {start : σ} {e : ε}
    (refused : l.foldlM f start = .error e) : ∃ s, ∃ a ∈ l, f s a = .error e := by
  induction l generalizing start with
  | nil => cases refused
  | cons a rest ih =>
    rw [List.foldlM_cons] at refused
    cases stepped : f start a with
    | error cause =>
      rw [stepped] at refused
      cases refused
      exact ⟨start, a, List.mem_cons_self, stepped⟩
    | ok next =>
      rw [stepped] at refused
      obtain ⟨s, b, member, failed⟩ := ih refused
      exact ⟨s, b, List.mem_cons_of_mem _ member, failed⟩

/-- Two computations end alike: both succeed, or both fail. -/
inductive Alike (E : ε → ε → Prop) (R : α → β → Prop) : Except ε α → Except ε β → Prop
  | ok {a : α} {b : β} (results : R a b) : Alike E R (.ok a) (.ok b)
  | error {e e' : ε} (causes : E e e') : Alike E R (.error e) (.error e')

section
variable {γ δ : Type} {E : ε → ε → Prop} {R : α → β → Prop} {S : γ → δ → Prop}

theorem Alike.refl (same : ∀ e, E e e) (x : Except ε α) : Alike E Eq x x := by
  cases x with
  | ok a => exact .ok rfl
  | error e => exact .error (same e)

theorem Alike.eq {x y : Except ε α} (alike : Alike Eq Eq x y) : x = y := by
  cases alike with
  | ok results => rw [results]
  | error causes => rw [causes]

theorem Alike.ok_iff {x y : Except ε α} (alike : Alike E Eq x y) {a : α} : y = .ok a ↔ x = .ok a := by
  cases alike with
  | ok results => rw [results]
  | error _ => simp

theorem Alike.exists_error {x : Except ε α} {y : Except ε β} (alike : Alike E R x y) {e : ε}
    (failed : x = .error e) : ∃ e', y = .error e' ∧ E e e' := by
  cases alike with
  | ok _ => cases failed
  | error causes =>
    cases failed
    exact ⟨_, rfl, causes⟩

theorem Alike.bind {x : Except ε α} {y : Except ε β} {f : α → Except ε γ} {g : β → Except ε δ}
    (first : Alike E R x y) (next : ∀ a b, R a b → Alike E S (f a) (g b)) : Alike E S (x >>= f) (y >>= g) := by
  cases first with
  | ok results => exact next _ _ results
  | error causes => exact .error causes

theorem Alike.foldlM {Q : γ → δ → Prop} {f : α → γ → Except ε α} {g : β → δ → Except ε β}
    (step : ∀ s t a b, R s t → Q a b → Alike E R (f s a) (g t b)) {l : List γ} {r : List δ}
    (members : List.Forall₂ Q l r) {s : α} {t : β} (start : R s t) :
    Alike E R (l.foldlM f s) (r.foldlM g t) := by
  induction members generalizing s t with
  | nil => exact .ok start
  | cons head _ ih =>
    rw [List.foldlM_cons, List.foldlM_cons]
    exact (step _ _ _ _ start head).bind fun _ _ stepped => ih stepped

theorem Alike.mapM {f : α → Except ε γ} {g : β → Except ε δ} {l : List α} {r : List β}
    (each : List.Forall₂ (fun a b => Alike E S (f a) (g b)) l r) :
    Alike E (List.Forall₂ S) (l.mapM f) (r.mapM g) := by
  induction each with
  | nil => exact .ok .nil
  | cons head _ ih =>
    rw [List.mapM_cons, List.mapM_cons]
    exact head.bind fun _ _ first => ih.bind fun _ _ others => .ok (.cons first others)

end

end TensorNetwork.Outcome
