import TensorNetwork.Session.Basic

/-! Requests to a session and their answers. A request that fails changes
nothing and reports nothing. -/
namespace TensorNetwork

inductive Request where
  | addTensor (rank : Int)
  | contract (groups : List (List TensorId)) (subscripts : IntMap (List Label))
  | transpose (tensor : TensorId) (permutation : List Int)
  | splitInPlace (tensor : TensorId) (left : Int)
  | split (tensor : TensorId) (permutation : List Int) (left : Int)
  | rank (tensor : TensorId)
  | regenerate
  | code
  | reset
  | append (candidate : Candidate)

inductive Answer where
  | done
  | tensor (tensor : TensorId)
  | tensors (tensors : List TensorId)
  | rank (rank : Nat)
  | code (text : Option String)

namespace Session

def serve (s : Session) : Request → Except Error (Answer × Session × List Event)
  | .addTensor rank => (s.addTensor rank).map fun (tensor, s) => (.tensor tensor, s, [])
  | .contract groups subscripts =>
      (s.contract groups subscripts).map fun (tensors, after) => (.tensors tensors, after)
  | .transpose tensor permutation =>
      (s.transpose tensor permutation).map fun (tensor, after) => (.tensor tensor, after)
  | .splitInPlace tensor left =>
      (s.splitInPlace tensor left).map fun ((q, r), after) => (.tensors [q, r], after)
  | .split tensor permutation left =>
      (s.split tensor permutation left).map fun ((q, r), after) => (.tensors [q, r], after)
  | .rank tensor => (s.rank tensor).map fun rank => (.rank rank, s, [])
  | .regenerate => s.regenerate.map fun (code, after) => (.code (some code), after)
  | .code => .ok (.code s.code, s, [])
  | .reset => .ok (.done, s.reset, [])
  | .append candidate => (s.append candidate).map fun s => (.done, s, [])

/-- What becomes of a session: a failed request leaves it as it was. -/
def after (s : Session) (request : Request) : Session :=
  match s.serve request with
  | .ok (_, s, _) => s
  | .error _ => s

/-- The session after some requests. -/
def run (s : Session) (requests : List Request) : Session := requests.foldl after s

end Session
end TensorNetwork
