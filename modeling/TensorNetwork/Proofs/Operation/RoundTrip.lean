import TensorNetwork.Operation.Text
import TensorNetwork.Proofs.Operation.Recognition
import TensorNetwork.Proofs.SingleAssignment

/-! Operations read from their own texts. The text of an operation with numbers
from zero on spells a sentence with the same numbers. A number below zero is
written with a dash that no token has, since a dash in a token is half an arrow. -/
namespace TensorNetwork

/-- The digits of a number from zero on. -/
def numeral (n : Int) : List Char := Nat.toDigits 10 n.toNat

theorem decimalValue_numeral {n : Int} (nonneg : 0 ≤ n) : (decimalValue (numeral n) : Int) = n := by
  rw [numeral, Text.decimalValue_toDigits, Int.toNat_of_nonneg nonneg]

theorem decimalValues_numeral {numbers : List Int} (nonneg : ∀ n ∈ numbers, 0 ≤ n) :
    decimalValues (numbers.map numeral) = numbers := by
  rw [decimalValues, List.map_map]
  exact (List.map_congr_left fun n member => decimalValue_numeral (nonneg n member)).trans numbers.map_id

def Operand.written (o : Operand) : WrittenOperand := ⟨numeral o.tensor, o.labels.map numeral⟩

theorem Operand.written_decoded {o : Operand} (tensor : 0 ≤ o.tensor) (labels : ∀ n ∈ o.labels, 0 ≤ n) :
    o.written.decoded = o := by
  rw [WrittenOperand.decoded, written, decimalValue_numeral tensor, decimalValues_numeral labels]

/-- The tensors of an operation and the labels of their axes. -/
def Operation.numbers (op : Operation) : List Int :=
  op.inputs ++ op.outputs ++
    match op with
    | .contraction c => c.labels ++ c.kept
    | _ => []

namespace Token

theorem Spells.append {tokens others : List Token} {text more : List Char} (spells : Spells tokens text)
    (later : Spells others more) : Spells (tokens ++ others) (text ++ more) := by
  induction spells with
  | done => exact later
  | blank space _ ih => exact .blank space ih
  | token writable _ ih =>
    rw [List.append_assoc]
    exact .token writable ih

theorem spells_token {token : Token} (writable : token.Writable) : Spells [token] token.spelling := by
  have spells := Spells.token writable .done
  rwa [List.append_nil] at spells

theorem spells_nat (n : Nat) : Spells [.int (Nat.toDigits 10 n)] (toString n).toList := by
  rw [Nat.toString_eq_repr, Nat.toList_repr]
  exact spells_token (Text.isNumeral_toDigits n)

theorem toList_int {n : Int} (nonneg : 0 ≤ n) : (toString n).toList = numeral n := by
  rw [Int.toString_eq_repr, Int.repr_eq_if, if_pos nonneg, Nat.toList_repr, numeral]

theorem spells_int {n : Int} (nonneg : 0 ≤ n) : Spells [.int (numeral n)] (toString n).toList := by
  rw [toList_int nonneg]
  exact spells_token (Text.isNumeral_toDigits n.toNat)

theorem spells_tensor {n : Int} (nonneg : 0 ≤ n) : Spells [.tensor (numeral n)] (tensorName n).toList := by
  rw [tensorName, String.toList_append, toList_int nonneg]
  exact spells_token (Text.isNumeral_toDigits n.toNat)

/-- A separated listing spells what its items do, with commas between. -/
theorem spells_commaSeparated {α : Type} {text : α → String} {tokens : α → List Token} {first : α}
    {others : List α} (each : ∀ a ∈ first :: others, Spells (tokens a) (text a).toList) :
    Spells (tokens first ++ others.flatMap fun a => .comma :: tokens a)
      (Text.commaSeparated ((first :: others).map text)).toList := by
  induction others generalizing first with
  | nil => simpa [Text.commaSeparated] using each first List.mem_cons_self
  | cons second others ih =>
    have head := each first List.mem_cons_self
    have tail := ih fun a member => each a (List.mem_cons_of_mem _ member)
    have comma : Spells [.comma] ", ".toList := .token trivial (.blank rfl .done)
    have whole := head.append (comma.append tail)
    simpa [Text.commaSeparated, String.intercalate_cons_cons] using whole

theorem spells_labels {labels : List Label} (nonneg : ∀ n ∈ labels, 0 ≤ n) :
    Spells (Grammar.labels (labels.map numeral)) (Text.bracketedInts labels).toList := by
  rw [Text.bracketedInts, Text.bracketed, String.toList_append, String.toList_append]
  cases labels with
  | nil => exact .token trivial (.token trivial .done)
  | cons first others =>
    have opening : Spells [.openSquare] "[".toList := spells_token trivial
    have closing : Spells [.closeSquare] "]".toList := spells_token trivial
    have inner : Spells _ (Text.commaSeparated ((first :: others).map toString)).toList :=
      spells_commaSeparated fun n member => spells_int (nonneg n member)
    have whole := (opening.append inner).append closing
    simpa [Grammar.labels, Grammar.furtherLabels, List.flatMap_map] using whole

theorem spells_operand {o : Operand} (tensor : 0 ≤ o.tensor) (labels : ∀ n ∈ o.labels, 0 ≤ n) :
    Spells (Grammar.operand o.written) o.text.toList := by
  rw [Operand.text, String.toList_append]
  exact (spells_tensor tensor).append (spells_labels labels)

end Token

namespace Operation
open Token (Spells spells_token spells_nat spells_tensor spells_labels spells_operand)

theorem spells_contraction {c : Contraction} (nonneg : ∀ n ∈ (contraction c).numbers, 0 ≤ n) :
    ∃ w : Sentence, w.Spells c.text ∧ w.Denotes (.contraction c) := by
  obtain ⟨first, others, operands⟩ := List.exists_cons_of_ne_nil c.operands_nonempty
  have produced : 0 ≤ c.output := nonneg _ (by simp [numbers, outputs])
  have kept : ∀ n ∈ c.kept, 0 ≤ n := fun n member => nonneg n (by simp [numbers, member])
  have consumed : ∀ o ∈ first :: others, 0 ≤ o.tensor := by
    intro o member
    apply nonneg
    rw [← operands] at member
    exact List.mem_append_left _ (List.mem_append_left _ (List.mem_map_of_mem member))
  have labels : ∀ o ∈ first :: others, ∀ n ∈ o.labels, 0 ≤ n := by
    intro o member n held
    apply nonneg
    rw [← operands] at member
    exact List.mem_append_right _ (List.mem_append_left _ (List.mem_flatMap_of_mem member held))
  refine ⟨.einsum (numeral c.output) first.written (others.map Operand.written) (c.kept.map numeral), ?_, ?_⟩
  · have opening : Spells [.equals, .keyword .einsum, .openRound] " = einsum(".toList :=
      .blank rfl (.token trivial (.blank rfl (.token trivial (.token trivial .done))))
    have arrow : Spells [.arrow] " -> ".toList := .blank rfl (.token trivial (.blank rfl .done))
    have closing : Spells [.closeRound] ")".toList := spells_token trivial
    have inner : Spells _ (Text.commaSeparated ((first :: others).map Operand.text)).toList :=
      Token.spells_commaSeparated fun o member => spells_operand (consumed o member) (labels o member)
    have whole := ((((spells_tensor produced).append opening).append inner).append arrow).append
      (spells_labels kept) |>.append closing
    rw [Sentence.Spells, Contraction.text, operands]
    simpa [Sentence.tokens, Grammar.furtherOperands, List.flatMap_map] using whole
  · have decoded : ((first :: others).map Operand.written).map WrittenOperand.decoded = first :: others := by
      rw [List.map_map]
      refine (List.map_congr_left fun o member => ?_).trans (List.map_id _)
      exact Operand.written_decoded (consumed o member) (labels o member)
    exact ⟨operands.trans decoded.symm, (decimalValues_numeral kept).symm, (decimalValue_numeral produced).symm⟩

theorem spells_transposition {t : Transposition} (nonneg : ∀ n ∈ (transposition t).numbers, 0 ≤ n) :
    ∃ w : Sentence, w.Spells t.text ∧ w.Denotes (.transposition t) := by
  have produced : 0 ≤ t.output := nonneg _ (by simp [numbers, outputs])
  have consumed : 0 ≤ t.input := nonneg _ (by simp [numbers, inputs])
  have order : ∀ n ∈ t.permutation, 0 ≤ n := fun n member => (t.bounded member).1
  refine ⟨.transpose (numeral t.output) (numeral t.input) (t.permutation.map numeral), ?_, ?_⟩
  · have opening : Spells [.equals, .keyword .transpose, .openRound] " = transpose(".toList :=
      .blank rfl (.token trivial (.blank rfl (.token trivial (.token trivial .done))))
    have comma : Spells [.comma] ", ".toList := .token trivial (.blank rfl .done)
    have closing : Spells [.closeRound] ")".toList := spells_token trivial
    have whole := (spells_tensor produced).append opening |>.append (spells_tensor consumed)
      |>.append comma |>.append (spells_labels order) |>.append closing
    rw [Sentence.Spells, Transposition.text]
    simpa [Sentence.tokens] using whole
  · exact ⟨(decimalValue_numeral consumed).symm, (decimalValues_numeral order).symm,
      (decimalValue_numeral produced).symm⟩

theorem spells_split {s : Split} (nonneg : ∀ n ∈ (split s).numbers, 0 ≤ n) :
    ∃ w : Sentence, w.Spells s.text ∧ w.Denotes (.split s) := by
  have toQ : 0 ≤ s.q := nonneg _ (by simp [numbers, outputs])
  have toR : 0 ≤ s.r := nonneg _ (by simp [numbers, outputs])
  have consumed : 0 ≤ s.input := nonneg _ (by simp [numbers, inputs])
  refine ⟨.qr (numeral s.q) (numeral s.r) (numeral s.input) (Nat.toDigits 10 s.rank) (Nat.toDigits 10 s.left),
    ?_, ?_⟩
  · have comma : Spells [.comma] ", ".toList := .token trivial (.blank rfl .done)
    have opening : Spells [.equals, .keyword .qr, .openRound] " = qr(".toList :=
      .blank rfl (.token trivial (.blank rfl (.token trivial (.token trivial .done))))
    have ranked : Spells [.comma, .keyword .rank, .equals] ", rank=".toList :=
      .token trivial (.blank rfl (.token trivial (.token trivial .done)))
    have leading : Spells [.comma, .keyword .left, .equals] ", left=".toList :=
      .token trivial (.blank rfl (.token trivial (.token trivial .done)))
    have closing : Spells [.closeRound] ")".toList := spells_token trivial
    have whole := (spells_tensor toQ).append comma |>.append (spells_tensor toR) |>.append opening
      |>.append (spells_tensor consumed) |>.append ranked |>.append (spells_nat s.rank)
      |>.append leading |>.append (spells_nat s.left) |>.append closing
    rw [Sentence.Spells, Split.text]
    simpa [Sentence.tokens] using whole
  · exact ⟨(decimalValue_numeral consumed).symm, (Text.decimalValue_toDigits s.rank).symm,
      (Text.decimalValue_toDigits s.left).symm, (decimalValue_numeral toQ).symm, (decimalValue_numeral toR).symm⟩

theorem ofText_text_of_nonneg {op : Operation} (known : op.Known) (nonneg : ∀ n ∈ op.numbers, 0 ≤ n) :
    ofText op.text = .ok op := by
  have written : ∃ w : Sentence, w.Spells op.text ∧ w.Denotes op := by
    cases op with
    | contraction c => exact spells_contraction nonneg
    | transposition t => exact spells_transposition nonneg
    | split s => exact spells_split nonneg
    | foreign f => exact known.elim
  obtain ⟨w, spells, denotes⟩ := written
  rw [ofText_of_spells spells]
  exact Sentence.construct_eq_ok.mpr denotes

end Operation

namespace Token

theorem spelling_dash {token : Token} (writable : token.Writable) :
    token = .arrow ∨ '-' ∉ token.spelling := by
  have digits : ∀ {numeral : List Char}, IsNumeral numeral → '-' ∉ numeral := by
    rintro numeral ⟨-, all⟩ member
    cases all _ member
  cases token with
  | tensor number => exact .inr (List.not_mem_cons_of_ne_of_not_mem (by decide) (digits writable))
  | int number => exact .inr (digits writable)
  | keyword word => exact .inr (by cases word <;> decide)
  | arrow => exact .inl rfl
  | _ => exact .inr (by decide)

/-- A dash is the shaft of an arrow. -/
theorem Spells.dashes {tokens : List Token} {text : List Char} (spells : Spells tokens text) :
    text.IsChain fun a b => a = '-' → b = '>' := by
  induction spells with
  | done => exact .nil
  | blank space _ ih =>
    refine List.isChain_cons.mpr ⟨?_, ih⟩
    rintro next _ rfl
    cases space
  | @token token tokens text writable _ ih =>
    rcases spelling_dash writable with rfl | free
    · refine .cons_cons (fun _ => rfl) (List.isChain_cons.mpr ⟨?_, ih⟩)
      rintro next _ head
      cases head
    · refine List.isChain_append.mpr ⟨?_, ih, ?_⟩
      · apply List.Pairwise.isChain
        apply List.pairwise_of_forall_mem_list
        rintro a member b _ rfl
        exact absurd member free
      · rintro a last b _ rfl
        exact absurd (List.mem_of_getLast? last) free

end Token

/-- The number is written somewhere in a text. -/
def Occurs (n : Int) (text : String) : Prop := (toString n).toList <:+: text.toList

namespace Occurs
variable {n : Int} {text : String}

theorem left (occurs : Occurs n text) (more : String) : Occurs n (text ++ more) := by
  rw [Occurs, String.toList_append]
  exact occurs.trans (List.prefix_append _ _).isInfix

theorem right (occurs : Occurs n text) (before : String) : Occurs n (before ++ text) := by
  rw [Occurs, String.toList_append]
  exact occurs.trans (List.suffix_append _ _).isInfix

theorem tensorName (n : Int) : Occurs n (tensorName n) := right (List.infix_refl _) "T"

theorem commaSeparated {items : List String} (member : text ∈ items) (occurs : Occurs n text) :
    Occurs n (Text.commaSeparated items) := by
  induction items with
  | nil => cases member
  | cons first others ih =>
    cases others with
    | nil =>
      rw [List.mem_singleton] at member
      rwa [Text.commaSeparated, String.intercalate_singleton, ← member]
    | cons second others =>
      rw [Text.commaSeparated, String.intercalate_cons_cons]
      rcases List.mem_cons.mp member with rfl | later
      · exact (occurs.left _).left _
      · exact (ih later).right _

theorem bracketedInts {values : List Int} (member : n ∈ values) : Occurs n (Text.bracketedInts values) :=
  ((commaSeparated (List.mem_map_of_mem member) (List.infix_refl _)).right "[").left "]"

/-- No token has a sign, so a text with a number below zero spells none. -/
theorem unspelled (occurs : Occurs n text) (negative : n < 0) : ¬∃ w : Sentence, w.Spells text := by
  rintro ⟨w, spells⟩
  have chain := List.IsChain.infix (Token.Spells.dashes spells) occurs
  have digits := Text.isNumeral_toDigits (-n).toNat
  rw [Int.toString_eq_repr, Int.repr_eq_if, if_neg (by omega), String.toList_append, Nat.toList_repr] at chain
  obtain ⟨c, rest, shown⟩ := List.exists_cons_of_ne_nil digits.1
  rw [shown] at chain digits
  have head : c = '>' := (List.isChain_cons.mp chain).1 c rfl rfl
  cases head ▸ digits.2 c List.mem_cons_self

end Occurs

namespace Operation

theorem occurs_contraction {c : Contraction} {n : Int} (member : n ∈ (contraction c).numbers) :
    Occurs n c.text := by
  -- what occurs among the operands occurs in the text
  have listed : ∀ o ∈ c.operands, Occurs n o.text → Occurs n c.text := fun o held occurs =>
    (Occurs.commaSeparated (List.mem_map_of_mem held) occurs).right _ |>.left _ |>.left _ |>.left _
  simp only [numbers, inputs, outputs, List.mem_append, List.mem_singleton] at member
  rcases member with (consumed | rfl) | labelled | kept
  · obtain ⟨o, held, rfl⟩ := List.mem_map.mp consumed
    exact listed o held ((Occurs.tensorName o.tensor).left _)
  · exact (Occurs.tensorName c.output).left _ |>.left _ |>.left _ |>.left _ |>.left _
  · obtain ⟨o, held, label⟩ := List.mem_flatMap.mp labelled
    exact listed o held ((Occurs.bracketedInts label).right _)
  · exact (Occurs.bracketedInts kept).right _ |>.left _

theorem occurs_transposition {t : Transposition} {n : Int} (member : n ∈ (transposition t).numbers) :
    Occurs n t.text := by
  simp only [numbers, inputs, outputs, List.append_nil, List.cons_append, List.nil_append, List.mem_cons,
    List.not_mem_nil, or_false] at member
  rcases member with rfl | rfl
  · exact (Occurs.tensorName t.input).right _ |>.left _ |>.left _ |>.left _
  · exact (Occurs.tensorName t.output).left _ |>.left _ |>.left _ |>.left _ |>.left _

theorem occurs_split {s : Split} {n : Int} (member : n ∈ (split s).numbers) : Occurs n s.text := by
  simp only [numbers, inputs, outputs, List.append_nil, List.cons_append, List.nil_append, List.mem_cons,
    List.not_mem_nil, or_false] at member
  -- the name of the first factor and what separates it begin the text of the rest
  have beginning : ∀ {text : String}, Occurs n text → Occurs n
      (text ++ " = qr(" ++ tensorName s.input ++ ", rank=" ++ toString s.rank ++ ", left=" ++
        toString s.left ++ ")") := fun occurs =>
    occurs.left _ |>.left _ |>.left _ |>.left _ |>.left _ |>.left _ |>.left _
  rcases member with rfl | rfl | rfl
  · exact (Occurs.tensorName s.input).right _ |>.left _ |>.left _ |>.left _ |>.left _ |>.left _
  · exact beginning ((Occurs.tensorName s.q).left _ |>.left _)
  · exact beginning ((Occurs.tensorName s.r).right _)

theorem ofText_text_of_negative {op : Operation} (known : op.Known) {n : Int} (member : n ∈ op.numbers)
    (negative : n < 0) : ofText op.text = .error (.malformedOperation op.text) := by
  have occurs : Occurs n op.text := by
    cases op with
    | contraction c => exact occurs_contraction member
    | transposition t => exact occurs_transposition member
    | split s => exact occurs_split member
    | foreign f => exact known.elim
  exact ofText_of_unspelled (occurs.unspelled negative)

/-- Texts write no sign, so what is read from them has numbers from zero on. -/
theorem numbers_nonneg {w : Sentence} {op : Operation} (denotes : w.Denotes op) :
    op.Known ∧ ∀ n ∈ op.numbers, 0 ≤ n := by
  have values : ∀ numerals, ∀ n ∈ decimalValues numerals, 0 ≤ n := by
    intro numerals n member
    obtain ⟨digits, -, rfl⟩ := List.mem_map.mp member
    exact Int.natCast_nonneg _
  cases op with
  | contraction c =>
    cases w with
    | einsum output first others kept =>
      obtain ⟨operands, labels, produced⟩ := denotes
      refine ⟨trivial, fun n member => ?_⟩
      simp only [numbers, inputs, outputs, Contraction.inputs, Contraction.labels, operands, labels, produced,
        List.mem_append, List.mem_singleton] at member
      rcases member with (consumed | rfl) | labelled | held
      · obtain ⟨o, listed, rfl⟩ := List.mem_map.mp consumed
        obtain ⟨written, -, rfl⟩ := List.mem_map.mp listed
        exact Int.natCast_nonneg _
      · exact Int.natCast_nonneg _
      · obtain ⟨o, listed, label⟩ := List.mem_flatMap.mp labelled
        obtain ⟨written, -, rfl⟩ := List.mem_map.mp listed
        exact values _ n label
      · exact values _ n held
    | _ => exact denotes.elim
  | transposition t =>
    cases w with
    | transpose output input permutation =>
      obtain ⟨consumed, -, produced⟩ := denotes
      exact ⟨trivial, by simp [numbers, inputs, outputs, consumed, produced]⟩
    | _ => exact denotes.elim
  | split s =>
    cases w with
    | qr q r input rank left =>
      obtain ⟨consumed, -, -, toQ, toR⟩ := denotes
      exact ⟨trivial, by simp [numbers, inputs, outputs, consumed, toQ, toR]⟩
    | _ => exact denotes.elim
  | foreign f => cases w <;> exact denotes.elim

/-- Reading undoes writing. An operation is read back from its text if its tensors
and labels have numbers from zero on, and its text is malformed if one has not. So
the text of an operation that was read from some text is read as that operation. -/
theorem ofText_inverts_text :
    (∀ op : Operation, op.Known → ofText op.text =
      if ∀ n ∈ op.numbers, 0 ≤ n then .ok op else .error (.malformedOperation op.text)) ∧
    ∀ (text : String) (op : Operation), ofText text = .ok op → ofText op.text = .ok op := by
  constructor
  · intro op known
    split
    · rename_i nonneg
      exact ofText_text_of_nonneg known nonneg
    · rename_i some
      simp only [not_forall, not_le] at some
      obtain ⟨n, member, negative⟩ := some
      exact ofText_text_of_negative known member negative
  · intro text op read
    obtain ⟨w, -, same⟩ | ⟨-, same⟩ := ofText_cases text
    · obtain ⟨known, nonneg⟩ := numbers_nonneg (Sentence.construct_eq_ok.mp (same.symm.trans read))
      exact ofText_text_of_nonneg known nonneg
    · cases same.symm.trans read

/-- Two contractions that differ in a sign, and a text with zeros and blanks that
its operation is not written with. -/
theorem ofText_inverts_text_samples :
    let join (last : Label) : Operation :=
      .contraction ⟨[⟨0, [0, 10]⟩, ⟨1, []⟩, ⟨2, [10, last]⟩], [], 3, by simp, by simp, by simp⟩
    ofText (join 7).text = .ok (join 7) ∧
      ofText (join (-7)).text = .error (.malformedOperation (join (-7)).text) ∧
      ofText "\tT4,T5=qr(T003 ,rank = 2, left=01)" = .ok (.split ⟨3, 2, 1, 4, 5, by decide, by decide⟩) ∧
      ofText (Operation.split ⟨3, 2, 1, 4, 5, by decide, by decide⟩).text =
        .ok (.split ⟨3, 2, 1, 4, 5, by decide, by decide⟩) := by
  have numeral : ∀ digits ∈ [['4'], ['5'], ['0', '0', '3'], ['2'], ['0', '1']], Token.IsNumeral digits := by
    simp [Token.IsNumeral, Token.isDigit]
  have spells : (Sentence.qr ['4'] ['5'] ['0', '0', '3'] ['2'] ['0', '1']).Spells
      "\tT4,T5=qr(T003 ,rank = 2, left=01)" := by
    simp only [List.forall_mem_cons] at numeral
    obtain ⟨q, r, input, rank, left, -⟩ := numeral
    exact .blank rfl <| .token q <| .token trivial <| .token r <| .token trivial <| .token trivial <|
      .token trivial <| .token input <| .blank rfl <| .token trivial <| .token trivial <| .blank rfl <|
      .token trivial <| .blank rfl <| .token rank <| .token trivial <| .blank rfl <| .token trivial <|
      .token trivial <| .token left <| .token trivial .done
  have read := ofText_of_spells spells
  intro join
  exact ⟨(ofText_inverts_text.1 (join 7) trivial).trans (if_pos (by decide)),
    (ofText_inverts_text.1 (join (-7)) trivial).trans (if_neg (by decide)), read,
    ofText_inverts_text.2 _ _ read⟩

end Operation
end TensorNetwork
