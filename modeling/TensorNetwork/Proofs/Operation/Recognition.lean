import TensorNetwork.Operation.Reader
import TensorNetwork.Proofs.Construction
import TensorNetwork.Proofs.Operation.Grammar
import TensorNetwork.Proofs.Text.Decimal

/-! Which texts are operations. A text is read as an operation exactly if some
sentence of the grammar is written in it whose numbers are the fields of that
operation; where they are the fields of none, the check that they fail is
reported, and a text without a sentence is refused as such. -/
namespace TensorNetwork

/-- Numbers written in a row. -/
def decimalValues (numerals : List (List Char)) : List Int :=
  numerals.map fun digits => (decimalValue digits : Int)

def WrittenOperand.decoded (o : WrittenOperand) : Operand :=
  ⟨decimalValue o.tensor, decimalValues o.labels⟩

namespace Sentence

/-- The sentence is written in a text, with blanks around its tokens. -/
def Spells (w : Sentence) (text : String) : Prop := Token.Spells w.tokens text.toList

/-- The numbers of the sentence are the fields of the operation. -/
def Denotes : Sentence → Operation → Prop
  | .einsum output first others kept, .contraction c =>
      c.operands = (first :: others).map WrittenOperand.decoded ∧ c.kept = decimalValues kept ∧
        c.output = decimalValue output
  | .transpose output input permutation, .transposition t =>
      t.input = decimalValue input ∧ t.permutation = decimalValues permutation ∧
        t.output = decimalValue output
  | .qr q r input rank left, .split s =>
      s.input = decimalValue input ∧ s.rank = decimalValue rank ∧ s.left = decimalValue left ∧
        s.q = decimalValue q ∧ s.r = decimalValue r
  | _, _ => False

/-- Builds an operation from the numbers of the sentence. -/
def construct : Sentence → Except Error Operation
  | .einsum output first others kept =>
      (Contraction.make ((first :: others).map fun o => (decimalValue o.tensor : Int))
        ((first :: others).map fun o => decimalValues o.labels) (decimalValues kept)
        (decimalValue output)).map .contraction
  | .transpose output input permutation =>
      (Transposition.make (decimalValue input) (decimalValues permutation) (decimalValue output)).map
        .transposition
  | .qr q r input rank left =>
      (Split.make (decimalValue input) (decimalValue rank) (decimalValue left) (decimalValue q)
        (decimalValue r)).map .split

theorem make_decoded (first : WrittenOperand) (others : List WrittenOperand) (kept : List Label)
    (output : TensorId) :
    Contraction.make ((first :: others).map fun o => (decimalValue o.tensor : Int))
        ((first :: others).map fun o => decimalValues o.labels) kept output =
      Contraction.ofOperands ((first :: others).map WrittenOperand.decoded) kept output := by
  rw [Contraction.make, if_neg (by simp), if_pos (by simp), List.zipWith_map, List.zipWith_self]
  rfl

theorem construct_eq_ok {w : Sentence} {op : Operation} : w.construct = .ok op ↔ w.Denotes op := by
  cases w with
  | einsum output first others kept =>
    rw [construct, make_decoded, Outcome.map_eq_ok]
    constructor
    · rintro ⟨c, built, rfl⟩
      exact Contraction.ofOperands_eq_ok built
    · intro denotes
      cases op with
      | contraction c =>
        obtain ⟨operands, labels, produced⟩ := denotes
        exact ⟨c, by rw [← operands, ← labels, ← produced, c.ofOperands_self], rfl⟩
      | _ => exact denotes.elim
  | transpose output input permutation =>
    rw [construct, Outcome.map_eq_ok]
    constructor
    · rintro ⟨t, built, rfl⟩
      exact Transposition.make_eq_ok built
    · intro denotes
      cases op with
      | transposition t =>
        obtain ⟨consumed, order, produced⟩ := denotes
        exact ⟨t, by rw [← consumed, ← order, ← produced, t.make_self], rfl⟩
      | _ => exact denotes.elim
  | qr q r input rank left =>
    rw [construct, Outcome.map_eq_ok]
    constructor
    · rintro ⟨s, built, rfl⟩
      exact Split.make_eq_ok built
    · intro denotes
      cases op with
      | split s =>
        obtain ⟨consumed, ranked, leading, toQ, toR⟩ := denotes
        exact ⟨s, by rw [← consumed, ← ranked, ← leading, ← toQ, ← toR, s.make_self], rfl⟩
      | _ => exact denotes.elim

theorem construct_structural {w : Sentence} {e : Error} (refused : w.construct = .error e) :
    e.kind = .structural := by
  cases w with
  | einsum output first others kept => exact Contraction.make_structural (Outcome.map_eq_error.mp refused)
  | transpose output input permutation =>
    exact Transposition.make_structural (Outcome.map_eq_error.mp refused)
  | qr q r input rank left => exact Split.make_structural (Outcome.map_eq_error.mp refused)

end Sentence

namespace ParseTree
open Token (IsNumeral)

theorem tensor_tensorNode {digits : List Char} (numeral : IsNumeral digits) :
    (tensorNode digits).tensor = .ok (decimalValue digits) := by
  have first : (tensorNode digits).firstText = .ok (String.ofList ('T' :: digits)) := rfl
  rw [tensorNode] at first ⊢
  rw [tensor, first]
  simp [bind, Except.bind, numberAfterMark, Text.integer?_numeral numeral]

theorem tokenInt_intToken {digits : List Char} (numeral : IsNumeral digits) :
    (intToken digits).tokenInt = .ok (decimalValue digits) := by
  simp [intToken, tokenInt, Text.integer?_numeral numeral]

theorem mapM_tokenInt {numerals : List (List Char)} (all : ∀ digits ∈ numerals, IsNumeral digits) :
    (numerals.map intToken).mapM tokenInt = .ok (decimalValues numerals) := by
  rw [Outcome.mapM_eq_ok, decimalValues, List.forall₂_map_left_iff, List.forall₂_map_right_iff,
    List.forall₂_same]
  exact fun digits member => tokenInt_intToken (all digits member)

theorem labels_labelsNode {numerals : List (List Char)} (all : ∀ digits ∈ numerals, IsNumeral digits) :
    (labelsNode numerals).labels = .ok (decimalValues numerals) := by
  cases numerals with
  | nil => rfl
  | cons first others =>
    have present : ((first :: others).map intToken).filter isPresent = (first :: others).map intToken := by
      rw [List.filter_eq_self]
      intro tree member
      obtain ⟨digits, -, rfl⟩ := List.mem_map.mp member
      rfl
    rw [labelsNode_cons, labels, present]
    exact mapM_tokenInt all

theorem forestLevels_map_intToken (numerals : List (List Char)) :
    forestLevels (numerals.map intToken) = [] := by
  induction numerals with
  | nil => rfl
  | cons first others ih => simpa [forestLevels, intToken, levels, joinLevels] using ih

theorem levels_labelsNode (numerals : List (List Char)) :
    (labelsNode numerals).levels = [[labelsNode numerals]] := by
  cases numerals with
  | nil => rfl
  | cons first others => rw [labelsNode_cons, levels, forestLevels_map_intToken]

/-- The nodes of an operand, from its parts up to the operand itself. -/
theorem levels_ofOperand (o : WrittenOperand) :
    (ofOperand o).levels.reverse.flatten = [tensorNode o.tensor, labelsNode o.labels, ofOperand o] := by
  have tensor : (tensorNode o.tensor).levels = [[tensorNode o.tensor]] := rfl
  rw [ofOperand, operandNode, levels]
  simp [forestLevels, tensor, levels_labelsNode, joinLevels]

theorem find_tensor (o : WrittenOperand) : (ofOperand o).find "tensor" = .ok (tensorNode o.tensor) := by
  have found : (ofOperand o).firstWithRule? "tensor" = some (tensorNode o.tensor) := by
    rw [firstWithRule?, levels_ofOperand]
    rfl
  rw [ofOperand, operandNode] at found ⊢
  rw [find, found]

theorem find_labels (o : WrittenOperand) : (ofOperand o).find "labels" = .ok (labelsNode o.labels) := by
  have found : (ofOperand o).firstWithRule? "labels" = some (labelsNode o.labels) := by
    rw [firstWithRule?, levels_ofOperand]
    cases o.labels <;> rfl
  rw [ofOperand, operandNode] at found ⊢
  rw [find, found]

theorem mapM_find_tensor {operands : List WrittenOperand} (all : ∀ o ∈ operands, IsNumeral o.tensor) :
    (operands.map ofOperand).mapM (fun operand => do (← operand.find "tensor").tensor) =
      .ok (operands.map fun o : WrittenOperand => (decimalValue o.tensor : Int)) := by
  rw [Outcome.mapM_eq_ok, List.forall₂_map_left_iff, List.forall₂_map_right_iff, List.forall₂_same]
  intro o member
  exact Outcome.bind_eq_ok.mpr ⟨_, find_tensor o, tensor_tensorNode (all o member)⟩

theorem mapM_find_labels {operands : List WrittenOperand}
    (all : ∀ o ∈ operands, ∀ digits ∈ o.labels, IsNumeral digits) :
    (operands.map ofOperand).mapM (fun operand => do (← operand.find "labels").labels) =
      .ok (operands.map fun o : WrittenOperand => decimalValues o.labels) := by
  rw [Outcome.mapM_eq_ok, List.forall₂_map_left_iff, List.forall₂_map_right_iff, List.forall₂_same]
  intro o member
  exact Outcome.bind_eq_ok.mpr ⟨_, find_labels o, labels_labelsNode (all o member)⟩

/-- The tree of a sentence that can be written is read as its numbers say. -/
theorem operation_ofSentence {w : Sentence} (writable : ∀ token ∈ w.tokens, token.Writable) :
    (ofSentence w).operation = w.construct := by
  cases w with
  | einsum output first others kept =>
    have produced : IsNumeral output := writable (.tensor output) (by simp [Sentence.tokens])
    have keeps : ∀ digits ∈ kept, IsNumeral digits := fun digits member =>
      writable (.int digits) (by simp [Sentence.tokens, Grammar.int_mem_labels member])
    have operands : ∀ o ∈ first :: others, ∀ token ∈ Grammar.operand o, token.Writable := by
      intro o member token held
      apply writable token
      have listed := Grammar.mem_operands member held
      simp only [Sentence.tokens, List.mem_append]
      tauto
    have tensors : ∀ o ∈ first :: others, IsNumeral o.tensor := fun o member =>
      operands o member (.tensor o.tensor) List.mem_cons_self
    have subscripts : ∀ o ∈ first :: others, ∀ digits ∈ o.labels, IsNumeral digits := fun o member digits held =>
      operands o member (.int digits) (List.mem_cons_of_mem _ (Grammar.int_mem_labels held))
    have whole : (ofSentence (.einsum output first others kept)).operation =
        contraction (tensorNode output) ((first :: others).map ofOperand) (labelsNode kept) := by
      simp [ofSentence, operation]
    rw [whole, contraction, tensor_tensorNode produced, mapM_find_tensor tensors,
      mapM_find_labels subscripts, labels_labelsNode keeps]
    rfl
  | transpose output input permutation =>
    have produced : IsNumeral output := writable (.tensor output) (by simp [Sentence.tokens])
    have consumed : IsNumeral input := writable (.tensor input) (by simp [Sentence.tokens])
    have order : ∀ digits ∈ permutation, IsNumeral digits := fun digits member =>
      writable (.int digits) (by simp [Sentence.tokens, Grammar.int_mem_labels member])
    change transposition _ _ _ = _
    rw [transposition, tensor_tensorNode produced, tensor_tensorNode consumed, labels_labelsNode order]
    rfl
  | qr q r input rank left =>
    have toQ : IsNumeral q := writable (.tensor q) (by simp [Sentence.tokens])
    have toR : IsNumeral r := writable (.tensor r) (by simp [Sentence.tokens])
    have consumed : IsNumeral input := writable (.tensor input) (by simp [Sentence.tokens])
    have ranked : IsNumeral rank := writable (.int rank) (by simp [Sentence.tokens])
    have leading : IsNumeral left := writable (.int left) (by simp [Sentence.tokens])
    change split _ _ _ _ _ = _
    rw [split, tensor_tensorNode toQ, tensor_tensorNode toR, tensor_tensorNode consumed,
      tokenInt_intToken ranked, tokenInt_intToken leading]
    rfl

end ParseTree

/-- At most one sentence is written in a text. -/
theorem Sentence.Spells.unique {w v : Sentence} {text : String} (one : w.Spells text)
    (other : v.Spells text) : w = v := by
  have scanned := (Token.Spells.scan? one w.tokens_apart).symm.trans (Token.Spells.scan? other v.tokens_apart)
  exact Sentence.tokens_injective (Option.some.inj scanned)

namespace Operation

theorem ofText_of_spells {w : Sentence} {text : String} (spells : w.Spells text) :
    ofText text = w.construct := by
  have scanned : Token.scan? text.toList = some w.tokens := Token.Spells.scan? spells w.tokens_apart
  have tree : ParseTree.ofText text = .ok (ParseTree.ofSentence w) := by
    rw [ParseTree.ofText, scanned, Option.bind_some, ParseTree.ofTokens?_tokens]
  rw [ofText, tree]
  exact ParseTree.operation_ofSentence (Token.Spells.writable spells)

theorem ofText_of_unspelled {text : String} (unspelled : ¬∃ w : Sentence, w.Spells text) :
    ofText text = .error (.malformedOperation text) := by
  have none : (Token.scan? text.toList).bind ParseTree.ofTokens? = none := by
    rw [Option.eq_none_iff_forall_ne_some]
    intro tree read
    obtain ⟨tokens, scanned, parsed⟩ := Option.bind_eq_some_iff.mp read
    obtain ⟨w, rfl, -⟩ := ParseTree.ofTokens?_eq_some.mp parsed
    exact unspelled ⟨w, Token.spells_of_scan? scanned⟩
  rw [ofText, ParseTree.ofText, none]
  rfl

theorem ofText_cases (text : String) :
    (∃ w : Sentence, w.Spells text ∧ ofText text = w.construct) ∨
      (¬∃ w : Sentence, w.Spells text) ∧ ofText text = .error (.malformedOperation text) := by
  by_cases derivable : ∃ w : Sentence, w.Spells text
  · obtain ⟨w, spells⟩ := derivable
    exact .inl ⟨w, spells, ofText_of_spells spells⟩
  · exact .inr ⟨derivable, ofText_of_unspelled derivable⟩

/-- The reader accepts exactly its grammar. A text is read as an operation if and
only if a sentence is written in it whose numbers are the fields of the operation
and pass its checks; it is refused for its structure if and only if a sentence is
written in it whose numbers fail them, and as malformed if and only if no sentence
is. Nothing else happens, and a text holds one sentence at most. -/
theorem ofText_accepts_grammar (text : String) :
    (∀ op, ofText text = .ok op ↔
      ∃ w : Sentence, w.Spells text ∧ w.Denotes op ∧ w.construct = .ok op) ∧
    (∀ e, ofText text = .error e ∧ e.kind = .structural ↔
      ∃ w : Sentence, w.Spells text ∧ w.construct = .error e) ∧
    (ofText text = .error (.malformedOperation text) ↔ ¬∃ w : Sentence, w.Spells text) ∧
    (∀ e, ofText text = .error e → e.kind = .structural ∨ e = .malformedOperation text) ∧
    ∀ w v : Sentence, w.Spells text → v.Spells text → w = v := by
  refine ⟨fun op => ⟨fun read => ?_, ?_⟩, fun e => ⟨?_, ?_⟩, ⟨?_, ofText_of_unspelled⟩, fun e refused => ?_,
    fun w v => Sentence.Spells.unique⟩
  · obtain ⟨w, spells, same⟩ | ⟨-, same⟩ := ofText_cases text
    · have built : w.construct = .ok op := same.symm.trans read
      exact ⟨w, spells, Sentence.construct_eq_ok.mp built, built⟩
    · cases same.symm.trans read
  · rintro ⟨w, spells, -, built⟩
    rw [ofText_of_spells spells, built]
  · rintro ⟨refused, structural⟩
    obtain ⟨w, spells, same⟩ | ⟨-, same⟩ := ofText_cases text
    · exact ⟨w, spells, same.symm.trans refused⟩
    · cases same.symm.trans refused
      cases structural
  · rintro ⟨w, spells, refused⟩
    exact ⟨by rw [ofText_of_spells spells, refused], Sentence.construct_structural refused⟩
  · rintro refused ⟨w, spells⟩
    rw [ofText_of_spells spells] at refused
    cases Sentence.construct_structural refused
  · obtain ⟨w, -, same⟩ | ⟨-, same⟩ := ofText_cases text
    · exact .inl (Sentence.construct_structural (same.symm.trans refused))
    · cases same.symm.trans refused
      exact .inr rfl

end Operation
end TensorNetwork
