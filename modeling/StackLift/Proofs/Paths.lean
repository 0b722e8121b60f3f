import StackLift.Graph.Walk
import StackLift.Proofs.Visits

namespace StackLift

namespace Graph

/-- Offsets that follow each other from `start`, the latest first. -/
inductive Path (graph : Graph) (start : UInt32) : List UInt32 → Prop
  | start : Path graph start [start]
  | step {t offset earlier} : Path graph start (offset :: earlier) →
      t ∈ graph.successors offset → Path graph start (t :: offset :: earlier)

theorem mem_successors_iff {graph : Graph} {offset t : UInt32} :
    t ∈ graph.successors offset ↔ ∃ node, graph.get? offset = some node ∧ t ∈ node.successors := by
  rw [successors]
  cases graph.get? offset with
  | none => simp
  | some node => simp

/-- What the instructions at offsets, the latest first, make of a frame, each applied to what the
earlier ones leave. -/
def frameAlong (graph : Graph) (f : Frame) : List UInt32 → Option Frame
  | [] => some f
  | offset :: earlier => do
    let node ← graph.get? offset
    let before ← graph.frameAlong f earlier
    let e ← (node.effectOn before).toOption
    return e.frame

theorem frameAlong_cons {graph : Graph} {f before : Frame} {offset : UInt32}
    {earlier : List UInt32} {node : Node} {e : Effect} (hnode : graph.get? offset = some node)
    (hbefore : graph.frameAlong f earlier = some before) (he : node.effectOn before = .ok e) :
    graph.frameAlong f (offset :: earlier) = some e.frame := by
  simp [frameAlong, hnode, hbefore, he, Except.toOption]

end Graph

end StackLift
