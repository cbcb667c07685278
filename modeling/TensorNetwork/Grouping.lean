import TensorNetwork.Error
import TensorNetwork.Ordered

/-! Groups of tensors that are joined together. Groups that share a tensor are
merged, also through others; a merged group stands where its first member
stood and lists its tensors in ascending order. -/
namespace TensorNetwork.Grouping

/-- The members of a group in ascending order. -/
def ascending (group : List TensorId) : List TensorId :=
  Ordered.sort (fun a b => a ≤ b) group.eraseDups

def overlaps (a b : List TensorId) : Bool :=
  a.any b.contains

/-- Adds a group to groups that do not overlap each other. Those it overlaps are
merged with it at the place of the first of them. -/
def join (group : List TensorId) : List (List TensorId) → List (List TensorId)
  | [] => [ascending group]
  | first :: rest =>
      if overlaps group first then
        ascending (group ++ first ++ (rest.filter (overlaps group)).flatten) ::
          rest.filter fun other => !overlaps group other
      else first :: join group rest

def mergeOverlapping (groups : List (List TensorId)) : List (List TensorId) :=
  groups.foldl (fun merged group => join group merged) []

end TensorNetwork.Grouping
