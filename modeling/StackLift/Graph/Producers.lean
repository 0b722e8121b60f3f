import StackLift.Graph

namespace StackLift.Graph

/-- The offsets of everything that the instruction at `offset` may consume. -/
def inputSources (graph : Graph) (offset : UInt32) : List UInt32 :=
  match graph.get? offset with
  | some node => node.inputs.flatMap fun input => input.sources.toList
  | none => []

/-- Adds the pending offsets to those found, together with everything they rest on. -/
def closure (graph : Graph) (pending : List UInt32) (found : OffsetSet) : OffsetSet :=
  match pending with
  | [] => found
  | offset :: rest =>
    if offset ∈ found then graph.closure rest found
    else graph.closure (graph.inputSources offset ++ rest) (found.insert offset)
termination_by (UInt32.size - found.size, pending.length)
decreasing_by
  · exact .right _ (by simp)
  · exact .left _ _ (OffsetSet.room_insert_lt ‹_›)

/-- The instructions that a value rests on. -/
def producers (graph : Graph) (v : Provenance) : List Instruction :=
  (graph.closure v.sources.toList .empty).toList.filterMap fun offset =>
    (graph.get? offset).map Node.toInstruction

end StackLift.Graph
