import TensorNetwork.Session.Request

/-! Requests served step by step. Every assignment is a step of its own, and a step
that fails undoes nothing: what was assigned before it stays. A request leaves its
session whole only because of the order of its steps. -/
namespace TensorNetwork

/-- A session at work, with what it has reported so far. -/
structure Desk where
  session : Session
  reports : List Event

/-- Steps that change a desk, up to the first that fails. -/
abbrev Edit := EStateM Error Desk

namespace Edit

def current : Edit Session := do
  return (← get).session

def update (f : Session → Session) : Edit Unit :=
  modify fun desk => { desk with session := f desk.session }

def report (event : Event) : Edit Unit :=
  modify fun desk => { desk with reports := desk.reports ++ [event] }

/-- Goes on with what passes a check. -/
def require {α : Type} : Except Error α → Edit α
  | .ok a => pure a
  | .error e => throw e

def rank (tensor : TensorId) : Edit Nat := do
  require ((← current).rank tensor)

def checkRank (tensor : TensorId) (used : Nat) : Edit Unit := do
  require ((← current).checkRank tensor used)

def setRank (tensor : TensorId) (rank : Nat) : Edit Unit :=
  update fun s => { s with ranks := s.ranks.insert tensor rank }

def setCount (count : TensorId) : Edit Unit :=
  update fun s => { s with count }

def register (tensor : TensorId) (rank : Nat) : Edit Unit := do
  setRank tensor rank
  setCount (max (← current).count (tensor + 1))

def append (candidate : Candidate) : Edit Unit := do
  let program ← require ((← current).program.append candidate)
  update fun s => { s with program }

def commit (planned : Planned) : Edit Unit := do
  forM (planned.op.outputs.zip planned.ranks) fun entry => register entry.1 entry.2
  append (.operation planned.op)
  report (.appended planned.op)

def addTensor (rank : Int) : Edit TensorId := do
  if rank < 0 then throw (.negativeRank rank)
  else
    let tensor := (← current).nextTensor
    setRank tensor rank.toNat
    setCount (tensor + 1)
    return tensor

def planGroup (subscripts : IntMap (List Label)) (group : List TensorId) (output : TensorId) :
    Edit Planned := do
  require ((← current).planGroup subscripts group output)

def planGroups (subscripts : IntMap (List Label)) :
    List (List TensorId) → TensorId → Edit (List Planned)
  | [], _ => return []
  | group :: rest, output => do
      let first ← planGroup subscripts group output
      return first :: (← planGroups subscripts rest (output + 1))

def contract (groups : List (List TensorId)) (subscripts : IntMap (List Label)) : Edit (List TensorId) := do
  let planned ← planGroups subscripts (Grouping.mergeOverlapping groups) (← current).nextTensor
  forM planned commit
  return planned.flatMap fun p => p.op.outputs

def transpose (tensor : TensorId) (permutation : List Int) : Edit TensorId := do
  checkRank tensor permutation.length
  if Session.isIdentity permutation then
    report (.skipped tensor)
    return tensor
  else
    let t ← require (Transposition.make tensor permutation (← current).nextTensor)
    commit ⟨.transposition t, [t.rank]⟩
    return t.output

def split (tensor : TensorId) (permutation : List Int) (left : Int) : Edit (TensorId × TensorId) := do
  let known ← rank tensor
  checkRank tensor permutation.length
  let next := (← current).nextTensor
  if Session.isIdentity permutation then
    let (split, planned) ← require (Session.planSplit tensor known left next)
    forM [planned] commit
    return (split.q, split.r)
  else
    let t ← require (Transposition.make tensor permutation next)
    let (split, planned) ← require (Session.planSplit next known left (next + 1))
    forM [⟨.transposition t, [known]⟩, planned] commit
    return (split.q, split.r)

def splitInPlace (tensor : TensorId) (left : Int) : Edit (TensorId × TensorId) := do
  split tensor (Session.identityPermutation (← rank tensor)) left

def regenerate : Edit String := do
  let s ← current
  let code := Codegen.fileText (← require (Codegen.compile s.name s.program none))
  update fun s => { s with code := some code }
  report (.regenerated s.program.length code)
  return code

def reset : Edit Unit := do
  update fun s => { s with program := .empty }
  update fun s => { s with ranks := .empty }
  setCount 0
  update fun s => { s with code := none }

def perform : Request → Edit Answer
  | .addTensor rank => return .tensor (← addTensor rank)
  | .contract groups subscripts => return .tensors (← contract groups subscripts)
  | .transpose tensor permutation => return .tensor (← transpose tensor permutation)
  | .splitInPlace tensor left => do
      let (q, r) ← splitInPlace tensor left
      return .tensors [q, r]
  | .split tensor permutation left => do
      let (q, r) ← split tensor permutation left
      return .tensors [q, r]
  | .rank tensor => return .rank (← rank tensor)
  | .regenerate => return .code (some (← regenerate))
  | .code => return .code (← current).code
  | .reset => do
      reset
      return .done
  | .append candidate => do
      append candidate
      return .done

end Edit

namespace Desk

def start (name : String) : Desk := ⟨Session.start name, []⟩

/-- What becomes of a desk, also where a request fails. -/
def after (desk : Desk) (request : Request) : Desk :=
  match (Edit.perform request).run desk with
  | .ok _ next => next
  | .error _ next => next

def run (desk : Desk) (requests : List Request) : Desk := requests.foldl after desk

end Desk
end TensorNetwork
