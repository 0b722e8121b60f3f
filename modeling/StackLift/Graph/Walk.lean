import StackLift.Graph

/-!
The order in which control flow is walked: depth first, and at each offset the code that follows
comes before the targets.
-/

namespace StackLift.Graph

/-- The successors recorded at an offset; none where there is no instruction. -/
def successors (graph : Graph) (offset : UInt32) : List UInt32 :=
  match graph.get? offset with
  | some node => node.successors
  | none => []

theorem successors_of_get? {graph : Graph} {offset : UInt32} {node : Node}
    (h : graph.get? offset = some node) : graph.successors offset = node.successors := by
  rw [successors, h]

/-- The successors recorded at an offset that are still to be met, the last of them first. -/
def ahead (graph : Graph) (offset : UInt32) (seen : OffsetSet) : List UInt32 :=
  ((graph.successors offset).filter (· ∉ seen)).reverse

@[simp] theorem mem_ahead {graph : Graph} {offset a : UInt32} {seen : OffsetSet} :
    a ∈ graph.ahead offset seen ↔ a ∈ graph.successors offset ∧ a ∉ seen := by
  simp [ahead]

/-- The offsets met from the pending ones, the first of them first, without those seen before. What
is pending may have been met by the time it comes first. -/
def walkFrom (graph : Graph) (pending : List UInt32) (seen : OffsetSet) : List UInt32 :=
  match pending with
  | [] => []
  | offset :: rest =>
    if offset ∈ seen then graph.walkFrom rest seen
    else
      offset :: graph.walkFrom (graph.ahead offset (seen.insert offset) ++ rest)
        (seen.insert offset)
termination_by (UInt32.size - seen.size, pending.length)
decreasing_by
  · exact .right _ (by simp)
  · exact .left _ _ (OffsetSet.room_insert_lt ‹_›)

def walk (graph : Graph) (start : UInt32) : List UInt32 :=
  graph.walkFrom [start] .empty

end StackLift.Graph
