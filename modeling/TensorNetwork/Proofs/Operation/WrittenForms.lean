import TensorNetwork.Program
import TensorNetwork.Proofs.Operation.Equivalence
import TensorNetwork.Proofs.SingleAssignment
import TensorNetwork.Proofs.Text.Lines
import TensorNetwork.Proofs.Text.Listing

/-! Written forms tell operations apart. Both the description and the text of an operation
show its kind and all its numbers, whatever their signs and however many they are, so that
equal forms are those of equal operations. The text of a program is that of its operations
line by line, and tells programs apart as well. -/
namespace TensorNetwork
open Text
open Text.LineEnds (feeds inline_append inline_bracketedInts inline_commaSeparated inline_int inline_nat
  inline_of_printed lines_intercalate lines_of_inline)

theorem tensorName_separated {s t : TensorId} {separator u v : String}
    (stop : separator.toList.head?.any (fun c => !isNumeric c) = true)
    (same : tensorName s ++ (separator ++ u) = tensorName t ++ (separator ++ v)) : s = t ∧ u = v := by
  rw [tensorName, tensorName, String.append_assoc, String.append_assoc, String.append_right_inj] at same
  exact int_separated stop same

theorem listable_operand : Listable Operand.text fun _ => True where
  delimited := by
    rintro ⟨s, labels⟩ ⟨t, labels'⟩ u v - - same
    simp only [Operand.text, tensorName, String.append_assoc, String.append_right_inj] at same
    have stops : ∀ listed text, Stops (bracketedInts listed ++ text) := by
      simp [Stops, bracketedInts, bracketed, isNumeric]
    obtain ⟨rfl, after⟩ := int_delimited (stops labels u) (stops labels' v) same
    obtain ⟨rfl, rest⟩ := bracketedInts_delimited after
    exact ⟨rfl, rest⟩
  ends _ := trivial
  opens operand text := by simp [Operand.text, tensorName]

/-- The arrow that follows the operands begins no further one. -/
theorem closes_arrow (text : String) : Closes Operand.text (fun _ => True) (" -> " ++ text) where
  ends := trivial
  comma := by simp
  apart operand rest := by simp [Operand.text, tensorName, ← String.toList_inj]

theorem Contraction.text_injective {c d : Contraction} (same : c.text = d.text) : c = d := by
  unfold text at same
  simp only [String.append_assoc] at same
  obtain ⟨output, after⟩ := tensorName_separated (by decide) same
  obtain ⟨operands, after⟩ := listable_operand.commaSeparated_delimited (closes_arrow _) (closes_arrow _) after
  rw [String.append_right_inj] at after
  obtain ⟨kept, -⟩ := bracketedInts_delimited after
  exact Contraction.ext operands kept output

theorem Contraction.description_injective {c d : Contraction} (same : c.description = d.description) : c = d := by
  unfold description at same
  simp only [String.append_assoc, String.append_right_inj] at same
  obtain ⟨inputs, after⟩ := intTuple_delimited same
  rw [String.append_right_inj] at after
  obtain ⟨subscripts, after⟩ := listable_intTuple.tuple_delimited after
  rw [String.append_right_inj] at after
  obtain ⟨kept, after⟩ := intTuple_delimited after
  rw [String.append_right_inj, String.append_left_inj] at after
  exact ext_parts inputs subscripts kept (toString_int_injective after)

theorem Transposition.text_injective {t t' : Transposition} (same : t.text = t'.text) : t = t' := by
  unfold text at same
  simp only [String.append_assoc] at same
  obtain ⟨output, after⟩ := tensorName_separated (by decide) same
  obtain ⟨input, after⟩ := tensorName_separated (by decide) after
  obtain ⟨permutation, -⟩ := bracketedInts_delimited after
  exact Transposition.ext input permutation output

theorem Transposition.description_injective {t t' : Transposition} (same : t.description = t'.description) :
    t = t' := by
  unfold description at same
  simp only [String.append_assoc, String.append_right_inj] at same
  obtain ⟨input, after⟩ := int_separated (by decide) same
  obtain ⟨permutation, after⟩ := intTuple_delimited after
  rw [String.append_right_inj, String.append_left_inj] at after
  exact Transposition.ext input permutation (toString_int_injective after)

theorem toString_natCast (n : Nat) : toString n = toString (n : Int) := rfl

theorem Split.text_injective {s t : Split} (same : s.text = t.text) : s = t := by
  unfold text at same
  simp only [String.append_assoc, toString_natCast] at same
  obtain ⟨q, after⟩ := tensorName_separated (by decide) same
  obtain ⟨r, after⟩ := tensorName_separated (by decide) after
  obtain ⟨input, after⟩ := tensorName_separated (by decide) after
  obtain ⟨rank, after⟩ := int_separated (by decide) after
  rw [String.append_left_inj] at after
  exact Split.ext input (Int.ofNat.inj rank) (Int.ofNat.inj (toString_int_injective after)) q r

theorem Split.description_injective {s t : Split} (same : s.description = t.description) : s = t := by
  unfold description at same
  simp only [String.append_assoc, String.append_right_inj, toString_natCast] at same
  obtain ⟨input, after⟩ := int_separated (by decide) same
  obtain ⟨rank, after⟩ := int_separated (by decide) after
  obtain ⟨left, after⟩ := int_separated (by decide) after
  obtain ⟨q, after⟩ := int_separated (by decide) after
  rw [String.append_left_inj] at after
  exact Split.ext input (Int.ofNat.inj rank) (Int.ofNat.inj left) q (toString_int_injective after)

namespace Operation

/-- What a description begins with. -/
def heading : Operation → String
  | .contraction _ => "(Contraction, "
  | .transposition _ => "(Transposition, "
  | .split _ => "(QRSplit, "
  | .foreign _ => "("

theorem description_begins (op : Operation) : ∃ rest, op.description = op.heading ++ rest := by
  unfold description Contraction.description Transposition.description Split.description Foreign.description
  cases op <;> simp only [heading, String.append_assoc, String.append_right_inj, exists_eq']

theorem description_injective {a b : Operation} (known : a.Known) (known' : b.Known)
    (same : a.description = b.description) : a = b := by
  obtain ⟨rest, begins⟩ := a.description_begins
  obtain ⟨rest', begins'⟩ := b.description_begins
  have headings : a.heading ++ rest = b.heading ++ rest' := begins.symm.trans (same.trans begins')
  cases a with
  | contraction c =>
    cases b with
    | contraction d => rw [Contraction.description_injective same]
    | foreign f => exact known'.elim
    | _ => simp [heading, ← String.toList_inj] at headings
  | transposition t =>
    cases b with
    | transposition t' => rw [Transposition.description_injective same]
    | foreign f => exact known'.elim
    | _ => simp [heading, ← String.toList_inj] at headings
  | split s =>
    cases b with
    | split s' => rw [Split.description_injective same]
    | foreign f => exact known'.elim
    | _ => simp [heading, ← String.toList_inj] at headings
  | foreign f => exact known.elim

/-- What a text says right behind the first output. -/
def action : Operation → String
  | .contraction _ => " = einsum("
  | .transposition _ => " = transpose("
  | .split _ => ", T"
  | .foreign _ => ""

theorem text_begins {op : Operation} (known : op.Known) :
    ∃ (tensor : TensorId) (rest : String), op.text = "T" ++ (toString tensor ++ (op.action ++ rest)) := by
  cases op with
  | contraction c =>
    refine ⟨c.output, ?_⟩
    unfold text Contraction.text
    simp only [tensorName, action, String.append_assoc, String.append_right_inj, exists_eq']
  | transposition t =>
    refine ⟨t.output, ?_⟩
    unfold text Transposition.text
    simp only [tensorName, action, String.append_assoc, String.append_right_inj, exists_eq']
  | split s =>
    have comma : ", T" = ", " ++ "T" := by decide
    refine ⟨s.q, ?_⟩
    unfold text Split.text
    simp only [tensorName, action, comma, String.append_assoc, String.append_right_inj, exists_eq']
  | foreign f => exact known.elim

/-- The number of the first output ends there. -/
theorem stops_action {op : Operation} (known : op.Known) (text : String) : Stops (op.action ++ text) := by
  cases op with
  | foreign f => exact known.elim
  | _ => simp [Stops, action, isNumeric]

theorem text_injective {a b : Operation} (known : a.Known) (known' : b.Known) (same : a.text = b.text) : a = b := by
  obtain ⟨tensor, rest, begins⟩ := text_begins known
  obtain ⟨tensor', rest', begins'⟩ := text_begins known'
  have names := begins.symm.trans (same.trans begins')
  rw [String.append_right_inj] at names
  obtain ⟨-, actions⟩ := int_delimited (stops_action known _) (stops_action known' _) names
  cases a with
  | contraction c =>
    cases b with
    | contraction d => rw [Contraction.text_injective same]
    | foreign f => exact known'.elim
    | _ => simp [action, ← String.toList_inj] at actions
  | transposition t =>
    cases b with
    | transposition t' => rw [Transposition.text_injective same]
    | foreign f => exact known'.elim
    | _ => simp [action, ← String.toList_inj] at actions
  | split s =>
    cases b with
    | split s' => rw [Split.text_injective same]
    | foreign f => exact known'.elim
    | _ => simp [action, ← String.toList_inj] at actions
  | foreign f => exact known.elim

theorem text_ne_empty {op : Operation} (known : op.Known) : op.text ≠ "" := by
  obtain ⟨tensor, rest, begins⟩ := text_begins known
  simp [begins]

end Operation

theorem inline_tensorName {ends : LineEnds} (tensor : TensorId) : ends.Inline (tensorName tensor) :=
  inline_append.mpr ⟨inline_of_printed (by decide), inline_int tensor⟩

/-- The text of an operation is a single line. -/
theorem Operation.inline_text {ends : LineEnds} {op : Operation} (known : op.Known) : ends.Inline op.text := by
  cases op with
  | contraction c =>
    have operands : ∀ item ∈ c.operands.map Operand.text, ends.Inline item := by
      refine List.forall_mem_map.mpr fun operand _ => ?_
      exact inline_append.mpr ⟨inline_tensorName _, inline_bracketedInts _⟩
    have verb : ends.Inline " = einsum(" := inline_of_printed (by decide)
    have arrow : ends.Inline " -> " := inline_of_printed (by decide)
    have closed : ends.Inline ")" := inline_of_printed (by decide)
    unfold text Contraction.text
    simp only [inline_append, inline_commaSeparated]
    exact ⟨⟨⟨⟨⟨inline_tensorName _, verb⟩, operands⟩, arrow⟩, inline_bracketedInts _⟩, closed⟩
  | transposition t =>
    have verb : ends.Inline " = transpose(" := inline_of_printed (by decide)
    have comma : ends.Inline ", " := inline_of_printed (by decide)
    have closed : ends.Inline ")" := inline_of_printed (by decide)
    unfold text Transposition.text
    simp only [inline_append]
    exact ⟨⟨⟨⟨⟨inline_tensorName _, verb⟩, inline_tensorName _⟩, comma⟩, inline_bracketedInts _⟩, closed⟩
  | split s =>
    have comma : ends.Inline ", " := inline_of_printed (by decide)
    have verb : ends.Inline " = qr(" := inline_of_printed (by decide)
    have rank : ends.Inline ", rank=" := inline_of_printed (by decide)
    have left : ends.Inline ", left=" := inline_of_printed (by decide)
    have closed : ends.Inline ")" := inline_of_printed (by decide)
    unfold text Split.text
    simp only [inline_append]
    exact ⟨⟨⟨⟨⟨⟨⟨⟨⟨inline_tensorName _, comma⟩, inline_tensorName _⟩, verb⟩, inline_tensorName _⟩, rank⟩,
      inline_nat _⟩, left⟩, inline_nat _⟩, closed⟩
  | foreign f => exact known.elim

namespace Program

/-- The lines of a program are the texts of its operations; without any there is one
empty line. -/
theorem lines_text {ends : LineEnds} {p : Program} (known : ∀ op ∈ p.operations, op.Known) :
    ends.lines p.text = if p.operations = [] then [""] else p.operations.map Operation.text := by
  split
  · rename_i none
    rw [text, none, List.map_nil, String.intercalate_nil, lines_of_inline (inline_of_printed (by decide))]
  · rename_i some
    have single : ∀ line ∈ p.operations.map Operation.text, ends.lines line = [line] :=
      List.forall_mem_map.mpr fun op member => lines_of_inline (Operation.inline_text (known op member))
    rw [text, lines_intercalate (by simpa using some), List.flatMap_congr single, List.flatMap_singleton']

theorem eq_of_map_text {ops ops' : List Operation} (known : ∀ op ∈ ops, op.Known) (known' : ∀ op ∈ ops', op.Known)
    (same : ops.map Operation.text = ops'.map Operation.text) : ops = ops' := by
  induction ops generalizing ops' with
  | nil => exact (List.map_eq_nil_iff.mp same.symm).symm
  | cons op rest ih =>
    cases ops' with
    | nil => cases same
    | cons op' rest' =>
      obtain ⟨here, later⟩ := List.forall_mem_cons.mp known
      obtain ⟨here', later'⟩ := List.forall_mem_cons.mp known'
      obtain ⟨first, others⟩ := List.cons.inj same
      rw [Operation.text_injective here here' first, ih later later' others]

theorem text_injective {p q : Program} (known : ∀ op ∈ p.operations, op.Known) (known' : ∀ op ∈ q.operations, op.Known)
    (same : p.text = q.text) : p = q := by
  have lines := congrArg feeds.lines same
  rw [lines_text known, lines_text known'] at lines
  -- The empty line of an empty program is no operation's text.
  have filled : ∀ {ops : List Operation}, (∀ op ∈ ops, op.Known) → [""] ≠ ops.map Operation.text := by
    intro ops known equal
    obtain ⟨op, member, written⟩ := List.mem_map.mp (equal ▸ List.mem_cons_self)
    exact Operation.text_ne_empty (known op member) written
  have operations : p.operations = q.operations := by
    split at lines <;> split at lines
    · rename_i none none'
      rw [none, none']
    · exact absurd lines (filled known')
    · exact absurd lines.symm (filled known)
    · exact eq_of_map_text known known' lines
  exact congrArg mk operations

end Program

/-- Written forms are faithful: operations of the known kinds are equal exactly if they have
the same description, and exactly if they have the same text; programs made of them are
equal exactly if they have the same text. Hence operations can be filed under descriptions. -/
theorem written_forms_faithful :
    (∀ a b : Operation, a.Known → b.Known →
      (a = b ↔ a.description = b.description) ∧ (a = b ↔ a.text = b.text)) ∧
    ∀ p q : Program, (∀ op ∈ p.operations, op.Known) → (∀ op ∈ q.operations, op.Known) →
      (p = q ↔ p.text = q.text) := by
  refine ⟨fun a b known known' => ⟨?_, ?_⟩, fun p q known known' => ?_⟩
  · exact ⟨congrArg _, Operation.description_injective known known'⟩
  · exact ⟨congrArg _, Operation.text_injective known known'⟩
  · exact ⟨congrArg _, Program.text_injective known known'⟩

/-- Labels that are shared out differently, and operations in another order. -/
theorem written_forms_faithful_samples :
    let join (first second : List Label) : Operation :=
      .contraction ⟨[⟨-1, first⟩, ⟨0, second⟩], [], -10, by simp, by simp, by simp⟩
    let halves : Operation := .split ⟨-10, 5, 3, 1, -2, by decide, by decide⟩
    (join [1] [10]).description ≠ (join [1, 10] []).description ∧ (join [1] [10]).text ≠ (join [1, 10] []).text ∧
      (Program.mk [join [1] [10], halves]).text ≠ (Program.mk [halves, join [1] [10]]).text ∧
      Program.empty.text ≠ (Program.mk [halves]).text := by
  intro join halves
  obtain ⟨described, written⟩ := written_forms_faithful.1 (join [1] [10]) (join [1, 10] []) trivial trivial
  have known : ∀ op ∈ [join [1] [10], halves], op.Known := by simp [join, halves, Operation.Known]
  have known' : ∀ op ∈ [halves, join [1] [10]], op.Known := by simp [join, halves, Operation.Known]
  have single : ∀ op ∈ [halves], op.Known := by simp [halves, Operation.Known]
  refine ⟨described.not.mp (by decide), written.not.mp (by decide), ?_, ?_⟩
  · exact (written_forms_faithful.2 ⟨_⟩ ⟨_⟩ known known').not.mp (by decide)
  · exact (written_forms_faithful.2 .empty ⟨_⟩ (by simp [Program.empty]) single).not.mp (by decide)

end TensorNetwork
