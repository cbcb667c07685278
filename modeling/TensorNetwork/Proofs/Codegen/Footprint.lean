import Mathlib.Data.List.Nodup
import TensorNetwork.Proofs.Codegen.Scaffold
import TensorNetwork.Proofs.Names

/-! The variables of generated code: the names that a statement reads and the names that
it assigns. The code for an operation reads its inputs and assigns its outputs; a
factor of a split may be assigned once more, to give it its axes back. -/
namespace TensorNetwork

namespace Source

mutual
/-- The variables whose values an expression needs. -/
def Expr.reads : Expr → List String
  | .var name => [name]
  | .int _ => []
  | .string _ => []
  | .tuple items => Expr.readsAll items
  | .field object _ => [object]
  | .access object index => object.reads ++ index.reads
  | .slice start stop => Expr.readsBound start ++ Expr.readsBound stop
  | .binary left _ right => left.reads ++ right.reads
  | .call _ arguments => Expr.readsArguments arguments
  | .method object _ arguments => object.reads ++ Expr.readsArguments arguments

def Expr.readsAll : List Expr → List String
  | [] => []
  | e :: rest => e.reads ++ Expr.readsAll rest

def Expr.readsBound : Option Expr → List String
  | none => []
  | some e => e.reads

def Expr.readsArguments : List Argument → List String
  | [] => []
  | argument :: rest => argument.reads ++ Expr.readsArguments rest

def Argument.reads : Argument → List String
  | .positional e => e.reads
  | .keyword _ e => e.reads
end

mutual
def Target.names : Target → List String
  | .var name => [name]
  | .tuple targets => Target.namesAll targets

def Target.namesAll : List Target → List String
  | [] => []
  | target :: rest => target.names ++ Target.namesAll rest
end

mutual
/-- A function reads nothing where it is defined. -/
def Statement.reads : Statement → List String
  | .assign _ value _ => value.reads
  | .result value => value.reads
  | .block statements => readsOf statements
  | .blank => []
  | .function .. => []
  | .load .. => []

/-- The variables that some statements read, in order and with repetition. -/
def readsOf : List Statement → List String
  | [] => []
  | statement :: rest => statement.reads ++ readsOf rest
end

mutual
def Statement.writes : Statement → List String
  | .assign target _ _ => target.names
  | .result _ => []
  | .block statements => writesOf statements
  | .blank => []
  | .function name _ _ => [name]
  | .load package localName => [localName.getD package]

/-- The variables that some statements assign, in order and with repetition. -/
def writesOf : List Statement → List String
  | [] => []
  | statement :: rest => statement.writes ++ writesOf rest
end

theorem writesOf_append (front back : List Statement) :
    writesOf (front ++ back) = writesOf front ++ writesOf back := by
  induction front with
  | nil => rfl
  | cons statement rest ih => simp [writesOf, ih]

theorem mem_readsOf {body : List Statement} {name : String} :
    name ∈ readsOf body ↔ ∃ statement ∈ body, name ∈ statement.reads := by
  induction body with
  | nil => simp [readsOf]
  | cons statement rest ih => simp [readsOf, ih]

theorem mem_writesOf {body : List Statement} {name : String} :
    name ∈ writesOf body ↔ ∃ statement ∈ body, name ∈ statement.writes := by
  induction body with
  | nil => simp [writesOf]
  | cons statement rest ih => simp [writesOf, ih]

end Source

namespace Codegen
open Source
variable {ε : Type} [ExtentAlgebra ε]

theorem readsAll_ints (values : List Int) : Expr.readsAll (values.map .int) = [] := by
  induction values with
  | nil => rfl
  | cons value rest ih => simpa [Expr.readsAll, Expr.reads] using ih

theorem readsAll_tensors (tensors : List TensorId) :
    Expr.readsAll (tensors.map tensorVar) = tensors.map tensorName := by
  induction tensors with
  | nil => rfl
  | cons tensor rest ih => simp [Expr.readsAll, tensorVar, Expr.reads, ih]

theorem readsArguments_operands (operands : List Operand) (kept : List Int) :
    Expr.readsArguments (operands.flatMap operandArguments ++ [.positional (intTuple kept)]) =
      operands.map fun o => tensorName o.tensor := by
  induction operands with
  | nil => simp [Expr.readsArguments, Argument.reads, intTuple, Expr.reads, readsAll_ints]
  | cons o rest ih =>
    simp only [List.flatMap_cons, operandArguments, List.cons_append, List.nil_append, Expr.readsArguments,
      Argument.reads, ih]
    simp [tensorVar, intTuple, Expr.reads, readsAll_ints]

theorem reads_contractionCall (c : Contraction) : (contractionCall c).reads = c.inputs.map tensorName := by
  rw [contractionCall, libraryCall, Expr.reads, readsArguments_operands, Contraction.inputs, List.map_map]
  rfl

theorem reads_transpositionCall (t : Transposition) : (transpositionCall t).reads = [tensorName t.input] := by
  simp [transpositionCall, libraryCall, Expr.reads, Expr.readsArguments, Argument.reads, tensorVar, intTuple,
    readsAll_ints]

theorem reads_shapeSlice (tensor : TensorId) (start stop : Option Int) :
    (shapeSlice tensor start stop).reads = [tensorName tensor] := by
  cases start <;> cases stop <;> simp [shapeSlice, Expr.reads, Expr.readsBound]

/-- A split looks at nothing but its input. -/
theorem mem_reads_splitCall {s : Split} {name : String} :
    name ∈ (splitCall s).reads ↔ name = tensorName s.input := by
  unfold splitCall splitMatrix
  split <;> simp [libraryCall, reshape, size, leftAxes, rightAxes, tensorVar, Expr.reads, Expr.readsAll,
    Expr.readsArguments, Argument.reads, reads_shapeSlice]

theorem reads_shapeItem (tensor : TensorId) (axis : Int) :
    (shapeItem tensor axis).reads = [tensorName tensor] := by
  simp [shapeItem, Expr.reads, Expr.readsAll]

theorem reads_resultStatement (tensors : List TensorId) :
    (resultStatement tensors).reads = tensors.map tensorName := by
  unfold resultStatement
  split
  · rfl
  · rw [Statement.reads, Expr.reads, readsAll_tensors]

/-- The statement gives a factor of a split its axes back. Apart from the factor, it
looks at the input of the split. -/
def Restores (s : Split) (tensor : TensorId) (statement : Statement) : Prop :=
  tensor ∈ [s.q, s.r] ∧ ∃ shape comment,
    statement = .assign (.var (tensorName tensor)) (reshape tensor shape) comment ∧
    ∀ name ∈ shape.reads, name = tensorName tensor ∨ name = tensorName s.input

theorem Restores.writes {s : Split} {tensor : TensorId} {statement : Statement}
    (restores : Restores s tensor statement) : statement.writes = [tensorName tensor] := by
  obtain ⟨-, shape, comment, rfl, -⟩ := restores
  rfl

theorem Restores.reads {s : Split} {tensor : TensorId} {statement : Statement}
    (restores : Restores s tensor statement) {name : String} (read : name ∈ statement.reads) :
    name = tensorName tensor ∨ name = tensorName s.input := by
  obtain ⟨-, shape, comment, rfl, looks⟩ := restores
  simp only [Statement.reads, reshape, tensorVar, Expr.reads, Expr.readsArguments, Argument.reads,
    List.mem_append, List.mem_singleton, List.not_mem_nil, or_false] at read
  rcases read with own | shape
  · exact .inl own
  · exact looks name shape

theorem assign_eq_ok {shapes : Option (ShapeTable ε)} {tensor : TensorId} {value : Expr} {statement : Statement}
    (assigned : assign shapes tensor value = .ok statement) :
    ∃ comment, statement = .assign (.var (tensorName tensor)) value comment := by
  obtain ⟨comment, -, rfl⟩ := Outcome.map_eq_ok.mp assigned
  exact ⟨comment, rfl⟩

/-- A factor is restored if it has several axes to get back. -/
theorem restore_eq_ok {shapes : Option (ShapeTable ε)} {s : Split} {tensor : TensorId} {axes : Expr} {several : Prop}
    [Decidable several] {part : List Statement} (factor : tensor ∈ [s.q, s.r])
    (looks : ∀ name ∈ axes.reads, name = tensorName tensor ∨ name = tensorName s.input)
    (restored : (if several then (assign shapes tensor (reshape tensor axes)).map ([·]) else .ok []) = .ok part) :
    part = [] ∨ ∃ statement, part = [statement] ∧ Restores s tensor statement := by
  split at restored
  · obtain ⟨statement, assigned, rfl⟩ := Outcome.map_eq_ok.mp restored
    obtain ⟨comment, rfl⟩ := assign_eq_ok assigned
    exact .inr ⟨_, rfl, factor, axes, comment, rfl, looks⟩
  · cases restored
    exact .inl rfl

/-- A split first assigns both factors, then some of them again. -/
theorem splitStatements_eq_ok {shapes : Option (ShapeTable ε)} {s : Split} {part : List Statement}
    (generated : splitStatements shapes s = .ok part) :
    ∃ comment tensors rest, tensors.Sublist [s.q, s.r] ∧ List.Forall₂ (Restores s) tensors rest ∧
      part = .assign (.tuple [.var (tensorName s.q), .var (tensorName s.r)]) (splitCall s) comment :: rest := by
  obtain ⟨comment, -, generated⟩ := Outcome.bind_eq_ok.mp generated
  obtain ⟨left, ofLeft, generated⟩ := Outcome.bind_eq_ok.mp generated
  obtain ⟨right, ofRight, done⟩ := Outcome.bind_eq_ok.mp generated
  cases done
  have leftAxes_reads : ∀ name ∈ (Expr.binary (leftAxes s) .add (shapeItem s.q 1)).reads,
      name = tensorName s.q ∨ name = tensorName s.input := by
    simp [leftAxes, Expr.reads, reads_shapeSlice, reads_shapeItem]
  have rightAxes_reads : ∀ name ∈ (Expr.binary (shapeItem s.r 0) .add (rightAxes s)).reads,
      name = tensorName s.r ∨ name = tensorName s.input := by
    simp [rightAxes, Expr.reads, reads_shapeSlice, reads_shapeItem]
  rcases restore_eq_ok (by simp) leftAxes_reads ofLeft with rfl | ⟨first, rfl, restoresQ⟩ <;>
    rcases restore_eq_ok (by simp) rightAxes_reads ofRight with rfl | ⟨second, rfl, restoresR⟩
  · exact ⟨comment, [], _, by simp, .nil, rfl⟩
  · exact ⟨comment, [s.r], _, by simp, .cons restoresR .nil, rfl⟩
  · exact ⟨comment, [s.q], _, by simp, .cons restoresQ .nil, rfl⟩
  · exact ⟨comment, [s.q, s.r], _, by simp, .cons restoresQ (.cons restoresR .nil), rfl⟩

theorem writesOf_restored {s : Split} {tensors : List TensorId} {rest : List Statement}
    (restored : List.Forall₂ (Restores s) tensors rest) : writesOf rest = tensors.map tensorName := by
  induction restored with
  | nil => rfl
  | cons restores _ ih => rw [writesOf, restores.writes, ih, List.singleton_append, List.map_cons]

/-- What the statements of an operation read and assign. -/
structure Footprint (op : Operation) (part : List Statement) : Prop where
  reads : ∀ front statement back, part = front ++ statement :: back → ∀ name ∈ statement.reads,
    name ∈ op.inputs.map tensorName ∨ name ∈ writesOf front
  uses : ∀ tensor ∈ op.inputs, tensorName tensor ∈ readsOf part
  writes : ∀ name, name ∈ writesOf part ↔ name ∈ op.outputs.map tensorName
  distinct : ∀ statement ∈ part, statement.writes.Nodup
  again : ∀ front statement back, part = front ++ statement :: back → ∀ name ∈ statement.writes,
    name ∈ writesOf front →
      (∃ s tensor, op = .split s ∧ name = tensorName tensor ∧ Restores s tensor statement) ∧
        (writesOf front).count name = 1

theorem footprint_single {op : Operation} {statement : Statement} (nodup : op.outputs.Nodup)
    (reads : statement.reads = op.inputs.map tensorName) (writes : statement.writes = op.outputs.map tensorName) :
    Footprint op [statement] := by
  have only : ∀ {front st back}, [statement] = front ++ st :: back → front = [] ∧ st = statement := by
    intro front st back split
    cases front with
    | nil =>
      cases split
      exact ⟨rfl, rfl⟩
    | cons first rest => simp at split
  refine ⟨fun front st back split name read => ?_, fun tensor used => ?_, fun name => ?_, ?_,
    fun front st back split name _ earlier => ?_⟩
  · obtain ⟨rfl, rfl⟩ := only split
    exact .inl (reads ▸ read)
  · simpa [readsOf, reads] using ⟨tensor, used, rfl⟩
  · simp [writesOf, writes]
  · rw [List.forall_mem_singleton, writes]
    exact nodup.map tensorName_injective
  · obtain ⟨rfl, rfl⟩ := only split
    cases earlier

theorem footprint_split {s : Split} {comment : Option String} {tensors : List TensorId} {rest : List Statement}
    (apart : s.q ≠ s.r) (some : tensors.Sublist [s.q, s.r])
    (restored : List.Forall₂ (Restores s) tensors rest) :
    Footprint (.split s)
      (.assign (.tuple [.var (tensorName s.q), .var (tensorName s.r)]) (splitCall s) comment :: rest) := by
  have factors : ([tensorName s.q, tensorName s.r] : List String).Nodup := by
    simpa using fun same => apart (tensorName_injective same)
  have restoring : ∀ statement ∈ rest, ∃ tensor, Restores s tensor statement := by
    intro statement member
    obtain ⟨tensor, -, restores⟩ := Outcome.exists_of_forall₂ restored.flip member
    exact ⟨tensor, restores⟩
  have named : ∀ {tensor statement}, Restores s tensor statement →
      tensorName tensor ∈ [tensorName s.q, tensorName s.r] := by
    intro tensor statement restores
    exact List.mem_map_of_mem (l := [s.q, s.r]) restores.1
  refine ⟨fun front statement back split name read => ?_, fun tensor used => ?_, fun name => ?_, ?_,
    fun front statement back split name written earlier => ?_⟩
  · cases front with
    | nil =>
      cases split
      exact .inl (by simpa [Operation.inputs] using mem_reads_splitCall.mp read)
    | cons first front =>
      cases split
      obtain ⟨tensor, restores⟩ := restoring statement (by simp)
      rcases restores.reads read with rfl | rfl
      · exact .inr (List.mem_append_left _ (named restores))
      · exact .inl (by simp [Operation.inputs])
  · refine List.mem_append_left _ (mem_reads_splitCall.mpr ?_)
    rw [List.mem_singleton.mp used]
  · have again : ∀ name ∈ writesOf rest, name ∈ [tensorName s.q, tensorName s.r] := by
      rw [writesOf_restored restored]
      exact (some.map tensorName).subset
    exact ⟨fun written => (List.mem_append.mp written).elim id (again name), List.mem_append_left _⟩
  · refine List.forall_mem_cons.mpr ⟨factors, fun statement member => ?_⟩
    obtain ⟨tensor, restores⟩ := restoring statement member
    rw [restores.writes]
    exact List.nodup_singleton _
  · cases front with
    | nil => cases earlier
    | cons first front =>
      cases split
      obtain ⟨tensor, restores⟩ := restoring statement (by simp)
      obtain rfl : name = tensorName tensor := by simpa [restores.writes] using written
      refine ⟨⟨s, tensor, rfl, rfl, restores⟩, ?_⟩
      -- A factor is not restored twice.
      have nodup : (writesOf (front ++ statement :: back)).Nodup := by
        refine (writesOf_restored restored).symm ▸ ?_
        exact factors.sublist (some.map tensorName)
      have once : tensorName tensor ∉ writesOf front := by
        rw [writesOf_append, writesOf, restores.writes] at nodup
        exact fun here => (List.nodup_append.mp nodup).2.2 _ here _ List.mem_cons_self rfl
      have first : List.count (tensorName tensor) [tensorName s.q, tensorName s.r] = 1 :=
        List.count_eq_one_of_mem factors (named restores)
      calc List.count (tensorName tensor) ([tensorName s.q, tensorName s.r] ++ writesOf front)
          = List.count (tensorName tensor) [tensorName s.q, tensorName s.r] +
              List.count (tensorName tensor) (writesOf front) := List.count_append
        _ = 1 := by rw [first, List.count_eq_zero_of_not_mem once]

theorem footprint_statements {shapes : Option (ShapeTable ε)} {op : Operation} {part : List Statement}
    (nodup : op.outputs.Nodup) (generated : statements shapes op = .ok part) : Footprint op part := by
  cases op with
  | contraction c =>
    obtain ⟨statement, assigned, rfl⟩ := Outcome.map_eq_ok.mp generated
    obtain ⟨comment, rfl⟩ := assign_eq_ok assigned
    exact footprint_single nodup (reads_contractionCall c) rfl
  | transposition t =>
    obtain ⟨statement, assigned, rfl⟩ := Outcome.map_eq_ok.mp generated
    obtain ⟨comment, rfl⟩ := assign_eq_ok assigned
    exact footprint_single nodup (reads_transpositionCall t) rfl
  | split s =>
    obtain ⟨comment, tensors, rest, some, restored, rfl⟩ := splitStatements_eq_ok generated
    have apart : s.q ≠ s.r := by simpa [Operation.outputs] using nodup
    exact footprint_split apart some restored
  | foreign f => cases generated

end Codegen
end TensorNetwork
