import TensorNetwork.Operation.Tree
import TensorNetwork.Proofs.Operation.Spelling

/-! The grammar of written operations. A sentence is a derivation from the start
symbol: it has one form for each kind of operation, and holds the digits that
stand where the grammar asks for numbers. The reader of tokens accepts exactly
the tokens of sentences, and no tokens belong to two of them. -/
namespace TensorNetwork

/-- `operand: tensor labels` -/
structure WrittenOperand where
  tensor : List Char
  labels : List (List Char)

inductive Sentence where
  /-- `tensor "=" "einsum" "(" operand ("," operand)* "->" labels ")"` -/
  | einsum (output : List Char) (first : WrittenOperand) (others : List WrittenOperand)
      (kept : List (List Char))
  /-- `tensor "=" "transpose" "(" tensor "," labels ")"` -/
  | transpose (output input : List Char) (permutation : List (List Char))
  /-- `tensor "," tensor "=" "qr" "(" tensor "," "rank" "=" INT "," "left" "=" INT ")"` -/
  | qr (q r input rank left : List Char)

namespace Grammar

/-- `("," INT)*` -/
def furtherLabels (labels : List (List Char)) : List Token :=
  labels.flatMap fun digits => [.comma, .int digits]

/-- `"[" [INT ("," INT)*] "]"` -/
def labels : List (List Char) → List Token
  | [] => [.openSquare, .closeSquare]
  | first :: others => .openSquare :: .int first :: (furtherLabels others ++ [.closeSquare])

def operand (o : WrittenOperand) : List Token := .tensor o.tensor :: labels o.labels

/-- `("," operand)*` -/
def furtherOperands (operands : List WrittenOperand) : List Token :=
  operands.flatMap fun o => .comma :: operand o

theorem int_mem_labels {numerals : List (List Char)} {digits : List Char} (member : digits ∈ numerals) :
    Token.int digits ∈ labels numerals := by
  cases numerals with
  | nil => cases member
  | cons first others =>
    rcases List.mem_cons.mp member with rfl | later
    · simp [labels]
    · simp [labels, furtherLabels, later]

theorem mem_operands {first o : WrittenOperand} {others : List WrittenOperand}
    (member : o ∈ first :: others) {token : Token} (held : token ∈ operand o) :
    token ∈ operand first ∨ token ∈ furtherOperands others := by
  rcases List.mem_cons.mp member with rfl | later
  · exact .inl held
  · exact .inr (List.mem_flatMap.mpr ⟨o, later, List.mem_cons_of_mem _ held⟩)

end Grammar

open Grammar in
/-- The tokens that are derived. -/
def Sentence.tokens : Sentence → List Token
  | .einsum output first others kept =>
      [.tensor output, .equals, .keyword .einsum, .openRound] ++ operand first ++
        furtherOperands others ++ [.arrow] ++ labels kept ++ [.closeRound]
  | .transpose output input permutation =>
      [.tensor output, .equals, .keyword .transpose, .openRound, .tensor input, .comma] ++
        labels permutation ++ [.closeRound]
  | .qr q r input rank left =>
      [.tensor q, .comma, .tensor r, .equals, .keyword .qr, .openRound, .tensor input, .comma,
        .keyword .rank, .equals, .int rank, .comma, .keyword .left, .equals, .int left, .closeRound]

namespace ParseTree

def labelsNode : List (List Char) → ParseTree
  | [] => .node "labels" [.absent]
  | numerals => .node "labels" (numerals.map intToken)

theorem labelsNode_cons (first : List Char) (others : List (List Char)) :
    labelsNode (first :: others) = .node "labels" ((first :: others).map intToken) := rfl

def ofOperand (o : WrittenOperand) : ParseTree := operandNode o.tensor (labelsNode o.labels)

/-- The tree of a sentence keeps what its fields hold. -/
def ofSentence : Sentence → ParseTree
  | .einsum output first others kept =>
      .node "einsum" (tensorNode output :: (first :: others).map ofOperand ++ [labelsNode kept])
  | .transpose output input permutation =>
      .node "transpose" [tensorNode output, tensorNode input, labelsNode permutation]
  | .qr q r input rank left =>
      .node "qr" [tensorNode q, tensorNode r, tensorNode input, intToken rank, intToken left]

@[simp] theorem moreLabels?_tokens (numerals : List (List Char)) (rest : List Token) :
    moreLabels? (Grammar.furtherLabels numerals ++ .closeSquare :: rest) =
      some (numerals.map intToken, rest) := by
  induction numerals with
  | nil => rfl
  | cons digits others ih =>
    change (moreLabels? (Grammar.furtherLabels others ++ _)).map _ = _
    rw [ih]
    rfl

theorem moreLabels?_eq_some {tokens rest : List Token} {trees : List ParseTree}
    (read : moreLabels? tokens = some (trees, rest)) :
    ∃ numerals, tokens = Grammar.furtherLabels numerals ++ .closeSquare :: rest ∧
      trees = numerals.map intToken := by
  fun_induction moreLabels? tokens generalizing trees with
  | case1 tail =>
    cases read
    exact ⟨[], rfl, rfl⟩
  | case2 digits tail ih =>
    obtain ⟨⟨others, after⟩, found, same⟩ := Option.map_eq_some_iff.mp read
    cases same
    obtain ⟨numerals, rfl, rfl⟩ := ih found
    exact ⟨digits :: numerals, rfl, rfl⟩
  | case3 => cases read

@[simp] theorem labels?_tokens (numerals : List (List Char)) (rest : List Token) :
    labels? (Grammar.labels numerals ++ rest) = some (labelsNode numerals, rest) := by
  cases numerals with
  | nil => rfl
  | cons first others => simp [Grammar.labels, labels?, labelsNode]

theorem labels?_eq_some {tokens rest : List Token} {tree : ParseTree}
    (read : labels? tokens = some (tree, rest)) :
    ∃ numerals, tokens = Grammar.labels numerals ++ rest ∧ tree = labelsNode numerals := by
  unfold labels? at read
  split at read
  · cases read
    exact ⟨[], rfl, rfl⟩
  · rename_i first tail
    obtain ⟨⟨others, after⟩, found, same⟩ := Option.map_eq_some_iff.mp read
    cases same
    obtain ⟨numerals, rfl, rfl⟩ := moreLabels?_eq_some found
    exact ⟨first :: numerals, by simp [Grammar.labels], rfl⟩
  · cases read

@[simp] theorem operand?_tokens (o : WrittenOperand) (rest : List Token) :
    operand? (Grammar.operand o ++ rest) = some (ofOperand o, rest) := by
  simp [Grammar.operand, operand?, ofOperand]

theorem operand?_eq_some {tokens rest : List Token} {tree : ParseTree}
    (read : operand? tokens = some (tree, rest)) :
    ∃ o : WrittenOperand, tokens = Grammar.operand o ++ rest ∧ tree = ofOperand o := by
  unfold operand? at read
  split at read
  · rename_i digits tail
    obtain ⟨⟨found, after⟩, labelled, same⟩ := Option.map_eq_some_iff.mp read
    cases same
    obtain ⟨numerals, rfl, rfl⟩ := labels?_eq_some labelled
    exact ⟨⟨digits, numerals⟩, rfl, rfl⟩
  · cases read

@[simp] theorem moreOperands?_tokens (operands : List WrittenOperand) (rest : List Token) :
    moreOperands? (Grammar.furtherOperands operands ++ .arrow :: rest) =
      some (operands.map ofOperand, rest) := by
  induction operands with
  | nil => simp [Grammar.furtherOperands, moreOperands?]
  | cons o others ih =>
    have whole : Grammar.furtherOperands (o :: others) ++ .arrow :: rest =
        .comma :: (Grammar.operand o ++ (Grammar.furtherOperands others ++ .arrow :: rest)) := by
      simp [Grammar.furtherOperands]
    rw [whole, moreOperands?]
    split
    · rename_i first after read
      rw [operand?_tokens] at read
      cases read
      rw [ih]
      rfl
    · rename_i none
      rw [operand?_tokens] at none
      cases none

theorem moreOperands?_eq_some {tokens rest : List Token} {trees : List ParseTree}
    (read : moreOperands? tokens = some (trees, rest)) :
    ∃ operands, tokens = Grammar.furtherOperands operands ++ .arrow :: rest ∧
      trees = operands.map ofOperand := by
  fun_induction moreOperands? tokens generalizing trees with
  | case1 tail =>
    cases read
    exact ⟨[], rfl, rfl⟩
  | case2 tail first after found ih =>
    obtain ⟨⟨others, last⟩, further, same⟩ := Option.map_eq_some_iff.mp read
    cases same
    obtain ⟨o, rfl, rfl⟩ := operand?_eq_some found
    obtain ⟨operands, rfl, rfl⟩ := ih further
    exact ⟨o :: operands, by simp [Grammar.furtherOperands], rfl⟩
  | case3 => cases read
  | case4 => cases read

theorem ofTokens?_tokens (w : Sentence) : ofTokens? w.tokens = some (ofSentence w) := by
  cases w with
  | einsum output first others kept =>
    simp [Sentence.tokens, ofTokens?, einsumBody?, operands?, ofSentence]
  | transpose output input permutation =>
    simp [Sentence.tokens, ofTokens?, transposeBody?, ofSentence]
  | qr q r input rank left => rfl

theorem einsumBody?_eq_some {output : List Char} {tokens : List Token} {tree : ParseTree}
    (read : einsumBody? output tokens = some tree) :
    ∃ first others kept, tokens = Grammar.operand first ++ Grammar.furtherOperands others ++ [.arrow] ++
        Grammar.labels kept ++ [.closeRound] ∧
      tree = ofSentence (.einsum output first others kept) := by
  unfold einsumBody? at read
  split at read
  · rename_i trees rest listed
    split at read
    · rename_i kept labelled
      cases read
      unfold operands? at listed
      split at listed
      · rename_i one after found
        obtain ⟨⟨more, last⟩, further, same⟩ := Option.map_eq_some_iff.mp listed
        cases same
        obtain ⟨first, rfl, rfl⟩ := operand?_eq_some found
        obtain ⟨others, rfl, rfl⟩ := moreOperands?_eq_some further
        obtain ⟨numerals, rfl, rfl⟩ := labels?_eq_some labelled
        exact ⟨first, others, numerals, by simp, rfl⟩
      · cases listed
    · cases read
  · cases read

theorem transposeBody?_eq_some {output : List Char} {tokens : List Token} {tree : ParseTree}
    (read : transposeBody? output tokens = some tree) :
    ∃ input permutation, tokens = [.tensor input, .comma] ++ Grammar.labels permutation ++ [.closeRound] ∧
      tree = ofSentence (.transpose output input permutation) := by
  unfold transposeBody? at read
  split at read
  · rename_i input rest
    split at read
    · rename_i permutation labelled
      cases read
      obtain ⟨numerals, rfl, rfl⟩ := labels?_eq_some labelled
      exact ⟨input, numerals, rfl, rfl⟩
    · cases read
  · cases read

/-- Tokens have a tree exactly if they are derived, and it is the tree of their
derivation. -/
theorem ofTokens?_eq_some {tokens : List Token} {tree : ParseTree} :
    ofTokens? tokens = some tree ↔ ∃ w : Sentence, w.tokens = tokens ∧ ofSentence w = tree := by
  constructor
  · intro read
    unfold ofTokens? at read
    split at read
    · rename_i output rest
      obtain ⟨first, others, kept, rfl, rfl⟩ := einsumBody?_eq_some read
      exact ⟨.einsum output first others kept, by simp [Sentence.tokens], rfl⟩
    · rename_i output rest
      obtain ⟨input, permutation, rfl, rfl⟩ := transposeBody?_eq_some read
      exact ⟨.transpose output input permutation, by simp [Sentence.tokens], rfl⟩
    · rename_i q r input rank left
      cases read
      exact ⟨.qr q r input rank left, rfl, rfl⟩
    · cases read
  · rintro ⟨w, rfl, rfl⟩
    exact ofTokens?_tokens w

theorem tensorNode_injective : Function.Injective tensorNode := by
  intro a b same
  exact String.ofList_injective (by simpa [tensorNode] using same)

theorem intToken_injective : Function.Injective intToken := by
  intro a b same
  exact String.ofList_injective (by simpa [intToken] using same)

theorem labelsNode_injective : Function.Injective labelsNode := by
  intro a b same
  cases a with
  | nil =>
    cases b with
    | nil => rfl
    | cons d others => simp [labelsNode, intToken] at same
  | cons c rest =>
    cases b with
    | nil => simp [labelsNode, intToken] at same
    | cons d others =>
      have trees : (c :: rest).map intToken = (d :: others).map intToken := by
        simpa [labelsNode] using same
      exact intToken_injective.list_map trees

theorem ofOperand_injective : Function.Injective ofOperand := by
  rintro ⟨tensor, labels⟩ ⟨tensor', labels'⟩ same
  simp only [ofOperand, operandNode, node.injEq, List.cons.injEq, and_true, true_and] at same
  rw [tensorNode_injective same.1, labelsNode_injective same.2]

/-- A tree belongs to one sentence. -/
theorem ofSentence_injective : Function.Injective ofSentence := by
  intro w v same
  cases w with
  | einsum output first others kept =>
    cases v with
    | einsum output' first' others' kept' =>
      simp only [ofSentence, List.cons_append, node.injEq, List.cons.injEq, true_and] at same
      obtain ⟨outputs, rest⟩ := same
      obtain ⟨operands, kepts⟩ := List.append_inj' rest rfl
      have listed := ofOperand_injective.list_map operands
      have labels := labelsNode_injective (List.singleton_inj.mp kepts)
      cases listed
      rw [tensorNode_injective outputs, labels]
    | _ => simp [ofSentence] at same
  | transpose output input permutation =>
    cases v with
    | transpose output' input' permutation' =>
      simp only [ofSentence, node.injEq, List.cons.injEq, and_true, true_and] at same
      rw [tensorNode_injective same.1, tensorNode_injective same.2.1, labelsNode_injective same.2.2]
    | _ => simp [ofSentence] at same
  | qr q r input rank left =>
    cases v with
    | qr q' r' input' rank' left' =>
      simp only [ofSentence, node.injEq, List.cons.injEq, and_true, true_and] at same
      obtain ⟨qs, rs, inputs, ranks, lefts⟩ := same
      rw [tensorNode_injective qs, tensorNode_injective rs, tensorNode_injective inputs,
        intToken_injective ranks, intToken_injective lefts]
    | _ => simp [ofSentence] at same

end ParseTree

namespace Sentence

/-- No tokens have two derivations. -/
theorem tokens_injective : Function.Injective tokens := by
  intro w v same
  have trees : some (ParseTree.ofSentence w) = some (ParseTree.ofSentence v) := by
    rw [← ParseTree.ofTokens?_tokens, ← ParseTree.ofTokens?_tokens, same]
  exact ParseTree.ofSentence_injective (Option.some.inj trees)

end Sentence

/-! No sentence puts a number behind digits, so the scanner finds its tokens. The
statements are about tokens that follow any other. -/
namespace Grammar
open Token (Apart)

theorem apart_cons {token : Token} (quiet : token.endsWithDigit = false) {rest : List Token}
    (later : rest.IsChain Apart) : (token :: rest).IsChain Apart := by
  refine List.isChain_cons.mpr ⟨fun next _ ends => ?_, later⟩
  rw [quiet] at ends
  cases ends

theorem apart_furtherLabels (numerals : List (List Char)) {rest : List Token}
    (later : rest.IsChain Apart) (previous : Token) :
    (previous :: (furtherLabels numerals ++ .closeSquare :: rest)).IsChain Apart := by
  induction numerals generalizing previous with
  | nil => exact .cons_cons (fun _ => rfl) (apart_cons rfl later)
  | cons digits others ih =>
    exact .cons_cons (fun _ => rfl) (apart_cons rfl (ih (.int digits)))

theorem apart_labels (numerals : List (List Char)) {rest : List Token}
    (later : rest.IsChain Apart) (previous : Token) :
    (previous :: (labels numerals ++ rest)).IsChain Apart := by
  cases numerals with
  | nil =>
    exact .cons_cons (fun _ => rfl) (.cons_cons (fun _ => rfl) (apart_cons rfl later))
  | cons first others =>
    have further := apart_furtherLabels others later (.int first)
    refine .cons_cons (fun _ => rfl) (apart_cons rfl ?_)
    simpa using further

theorem apart_operand (o : WrittenOperand) {rest : List Token} (later : rest.IsChain Apart)
    (previous : Token) : (previous :: (operand o ++ rest)).IsChain Apart :=
  .cons_cons (fun _ => rfl) (apart_labels o.labels later (.tensor o.tensor))

theorem apart_furtherOperands (operands : List WrittenOperand) {rest : List Token}
    (later : rest.IsChain Apart) : (furtherOperands operands ++ .arrow :: rest).IsChain Apart := by
  induction operands with
  | nil => exact apart_cons rfl later
  | cons o others ih => simpa [furtherOperands] using apart_operand o ih .comma

end Grammar

theorem Sentence.tokens_apart (w : Sentence) : w.tokens.IsChain Token.Apart := by
  have closing : [Token.closeRound].IsChain Token.Apart := .singleton _
  cases w with
  | einsum output first others kept =>
    have tail := (Grammar.apart_labels kept closing .arrow).tail
    have inner := Grammar.apart_operand first (Grammar.apart_furtherOperands others tail) .openRound
    have whole : (Sentence.einsum output first others kept).tokens =
        .tensor output :: .equals :: .keyword .einsum :: .openRound :: (Grammar.operand first ++
          (Grammar.furtherOperands others ++ .arrow :: (Grammar.labels kept ++ [.closeRound]))) := by
      simp [tokens]
    rw [whole]
    exact .cons_cons (fun _ => rfl) (.cons_cons (fun _ => rfl) (.cons_cons (fun _ => rfl) inner))
  | transpose output input permutation =>
    have inner := Grammar.apart_labels permutation closing .comma
    exact .cons_cons (fun _ => rfl) (.cons_cons (fun _ => rfl) (.cons_cons (fun _ => rfl)
      (.cons_cons (fun _ => rfl) (.cons_cons (fun _ => rfl) inner))))
  | qr q r input rank left => simp [tokens, Token.Apart, Token.startsWithDigit, Token.endsWithDigit]

end TensorNetwork
