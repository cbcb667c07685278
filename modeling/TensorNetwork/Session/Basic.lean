import TensorNetwork.Codegen.Module
import TensorNetwork.Grouping
import TensorNetwork.Operation.Canonical

/-! Sessions build a program one request at a time. A session allocates the
tensors, keeps their ranks and checks a request completely before it changes
anything, so a request that fails leaves the session as it was. -/
namespace TensorNetwork

structure Session where
  /-- The name of the function to generate. -/
  name : String
  program : Program
  ranks : IntMap Nat
  /-- No tensor allocated so far reaches this number. -/
  count : TensorId
  /-- The source text generated last. -/
  code : Option String

/-- What a session reports while it serves a request. -/
inductive Event where
  | appended (op : Operation)
  | skipped (tensor : TensorId)
  | regenerated (operations : Nat) (code : String)

def Event.message : Event → String
  | .appended op => "Appended " ++ op.text
  | .skipped tensor => "Skipped identity transposition of " ++ tensorName tensor
  | .regenerated operations code => s!"Regenerated code for {operations} operations:\n" ++ code

/-- An operation ready to be appended, with the ranks of the tensors it produces. -/
structure Planned where
  op : Operation
  ranks : List Nat

namespace Session

def start (name : String) : Session := ⟨name, .empty, .empty, 0, none⟩

/-- The next unused tensor. Tensors produced by operations that were appended
directly count as used. -/
def nextTensor (s : Session) : TensorId :=
  s.program.produced.foldl (fun next tensor => max next (tensor + 1)) s.count

def rank (s : Session) (tensor : TensorId) : Except Error Nat :=
  match s.ranks.get? tensor with
  | some rank => .ok rank
  | none => .error (.unregistered tensor)

def checkRank (s : Session) (tensor : TensorId) (used : Nat) : Except Error Unit := do
  let rank ← s.rank tensor
  if rank = used then .ok () else .error (.rankMismatch tensor rank used)

def register (s : Session) (tensor : TensorId) (rank : Nat) : Session :=
  { s with ranks := s.ranks.insert tensor rank, count := max s.count (tensor + 1) }

def commit (s : Session) (planned : Planned) : Session :=
  let registered := (planned.op.outputs.zip planned.ranks).foldl (fun s entry => s.register entry.1 entry.2) s
  { registered with program := s.program.push planned.op }

def commitAll (s : Session) (planned : List Planned) : Session := planned.foldl commit s

def appendedEvents (planned : List Planned) : List Event := planned.map fun p => .appended p.op

/-- Registers a tensor that the program does not compute. -/
def addTensor (s : Session) (rank : Int) : Except Error (TensorId × Session) :=
  if rank < 0 then .error (.negativeRank rank)
  else
    let tensor := s.nextTensor
    .ok (tensor, { s with ranks := s.ranks.insert tensor rank.toNat, count := tensor + 1 })

/-- The labels that occur once, in order of appearance. -/
def freeLabels (labels : List Label) : List Label := labels.filter fun label => labels.count label = 1

def planOperand (s : Session) (subscripts : IntMap (List Label)) (tensor : TensorId) :
    Except Error Operand := do
  match subscripts.get? tensor with
  | none => .error (.missingSubscripts tensor)
  | some labels =>
      s.checkRank tensor labels.length
      .ok ⟨tensor, labels⟩

def planGroup (s : Session) (subscripts : IntMap (List Label)) (group : List TensorId)
    (output : TensorId) : Except Error Planned := do
  let operands ← group.mapM (s.planOperand subscripts)
  let kept := freeLabels (operands.flatMap Operand.labels)
  let contraction ← Contraction.ofOperands operands kept output
  .ok ⟨.contraction (← contraction.canonical), [kept.length]⟩

def planGroups (s : Session) (subscripts : IntMap (List Label)) :
    List (List TensorId) → TensorId → Except Error (List Planned)
  | [], _ => .ok []
  | group :: rest, output => do
      let first ← s.planGroup subscripts group output
      .ok (first :: (← planGroups s subscripts rest (output + 1)))

/-- Contracts every group of joined tensors. Groups that overlap are merged;
labels that occur only once in a merged group are kept. -/
def contract (s : Session) (groups : List (List TensorId)) (subscripts : IntMap (List Label)) :
    Except Error (List TensorId × Session × List Event) := do
  let planned ← s.planGroups subscripts (Grouping.mergeOverlapping groups) s.nextTensor
  .ok (planned.flatMap fun p => p.op.outputs, s.commitAll planned, appendedEvents planned)

def identityPermutation (rank : Nat) : List Int := (List.range rank).map Int.ofNat

def isIdentity (permutation : List Int) : Bool := permutation = identityPermutation permutation.length

/-- Transposes a tensor; the identity leaves it as it is. -/
def transpose (s : Session) (tensor : TensorId) (permutation : List Int) :
    Except Error (TensorId × Session × List Event) := do
  s.checkRank tensor permutation.length
  if isIdentity permutation then .ok (tensor, s, [.skipped tensor])
  else
    let t ← Transposition.make tensor permutation s.nextTensor
    let planned : Planned := ⟨.transposition t, [t.rank]⟩
    .ok (t.output, s.commit planned, appendedEvents [planned])

def planSplit (tensor : TensorId) (rank : Nat) (left : Int) (next : TensorId) :
    Except Error (Split × Planned) := do
  let split ← Split.make tensor rank left next (next + 1)
  .ok (split, ⟨.split split, [split.left + 1, split.right + 1]⟩)

/-- Transposes a tensor if need be, then splits it. -/
def split (s : Session) (tensor : TensorId) (permutation : List Int) (left : Int) :
    Except Error ((TensorId × TensorId) × Session × List Event) := do
  let rank ← s.rank tensor
  s.checkRank tensor permutation.length
  let next := s.nextTensor
  if isIdentity permutation then
    let (split, planned) ← planSplit tensor rank left next
    .ok ((split.q, split.r), s.commit planned, appendedEvents [planned])
  else
    let t ← Transposition.make tensor permutation next
    let (split, planned) ← planSplit next rank left (next + 1)
    let both := [⟨.transposition t, [rank]⟩, planned]
    .ok ((split.q, split.r), s.commitAll both, appendedEvents both)

/-- Splits a tensor with its axes in place. -/
def splitInPlace (s : Session) (tensor : TensorId) (left : Int) :
    Except Error ((TensorId × TensorId) × Session × List Event) := do
  s.split tensor (identityPermutation (← s.rank tensor)) left

/-- Generates the source of the whole program and keeps its text. -/
def regenerate (s : Session) : Except Error (String × Session × List Event) := do
  let code := Codegen.fileText (← Codegen.compile s.name s.program none)
  .ok (code, { s with code := some code }, [.regenerated s.program.length code])

/-- Forgets the program, its tensors and its source. -/
def reset (s : Session) : Session := start s.name

/-- Appends to the program without registering anything. -/
def append (s : Session) (candidate : Candidate) : Except Error Session := do
  .ok { s with program := ← s.program.append candidate }

end Session
end TensorNetwork
