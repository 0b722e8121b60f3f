import StackLift.Discovery.Resolve
import StackLift.Frame.Effect

/-!
One visit of the discovery: an arriving frame is merged into the one recorded at its offset, and the
instruction there is followed if it is new or its frame grew. A visit finds a new offset, or uses up
room of the recorded frames, or drops the frame (`Discovery.visit_progress`).
-/

namespace StackLift

/-- The slot-wise union of the inputs recorded for the instruction at `offset` with those that a
visit popped. -/
def recordInputs (offset : UInt32) (recorded popped : List Provenance) :
    Except Fault (List Provenance) :=
  if recorded = [] then .ok popped
  else if recorded.length = popped.length then .ok (List.zipWith Provenance.merge recorded popped)
  else .error (.unsupportedStackEffect offset)

namespace Discovery

/-- Follows a node of the graph from its frame: records what it consumes and infers, and gives the
frames with which its successors are reached, the last first. -/
def follow (d : Discovery) (graph : Graph) (node : Node) (overflow : Overflow := .panics) :
    Traced (Graph × List Frame) := do
  let call ← d.resolveCall? graph node
  let effect ← .ofExcept (node.frame.effect node.toInstruction (call.map Call.signature) overflow)
  let inputs ← .ofExcept (recordInputs node.offset node.inputs effect.popped)
  let popped := { node with
    inputs := inputs
    inferred := match call with
      | some call => .call call
      | none => node.inferred }
  let inferred ← d.resolveTarget (graph.insert popped) popped
  let known := { popped with inferred := inferred }
  return (graph.insert known, known.successors.reverse.map effect.frame.moveTo)

def decode (d : Discovery) (frame : Frame) : Except Fault Node := do
  let decoded ← (d.image.decode d.isa frame.key frame.ip.toNat).1
  return .fresh ⟨frame.ip, decoded.opcode, decoded.operand, decoded.size⟩ frame

/-- Takes an arriving frame into account. -/
def visit (d : Discovery) (graph : Graph) (frame : Frame) (overflow : Overflow := .panics) :
    Traced (Graph × List Frame) :=
  match graph.get? frame.ip with
  | some node => do
    let (merged, grew) ← .ofExcept (node.frame.merge frame)
    if grew then
      Traced.report (.frameChanged frame.ip)
      let node := { node with frame := merged }
      d.follow (graph.insert node) node overflow
    else
      return (graph, [])
  | none => do
    let node ← .ofExcept (d.decode frame)
    Traced.report (.decoded node.toInstruction)
    d.follow (graph.insert node) node overflow

/-- Following a node changes its inputs and what is inferred about it, and nothing else. -/
theorem graph_of_follow {d : Discovery} {graph next : Graph} {node : Node} {frames : List Frame}
    {overflow : Overflow} (h : (d.follow graph node overflow).outcome = .ok (next, frames)) :
    ∃ inputs inferred,
      next = graph.insert { node with inputs := inputs, inferred := inferred } := by
  obtain ⟨_, _, h⟩ := Traced.outcome_bind_eq_ok.1 h
  obtain ⟨_, _, h⟩ := Traced.outcome_bind_eq_ok.1 h
  obtain ⟨inputs, _, h⟩ := Traced.outcome_bind_eq_ok.1 h
  obtain ⟨inferred, _, h⟩ := Traced.outcome_bind_eq_ok.1 h
  cases h
  exact ⟨inputs, inferred, rfl⟩

theorem offset_of_decode {d : Discovery} {frame : Frame} {node : Node}
    (h : d.decode frame = .ok node) : node.offset = frame.ip := by
  unfold decode at h
  cases hd : (d.image.decode d.isa frame.key frame.ip.toNat).1 with
  | error fault => rw [hd] at h; cases h
  | ok decoded => rw [hd] at h; cases h; rfl

theorem size_of_follow {d : Discovery} {graph next : Graph} {node old : Node} {frames : List Frame}
    {overflow : Overflow} (hold : graph.get? node.offset = some old)
    (h : (d.follow graph node overflow).outcome = .ok (next, frames)) :
    next.size = graph.size := by
  obtain ⟨inputs, inferred, rfl⟩ := graph_of_follow h
  exact Graph.size_insert_of_some _ hold

theorem room_of_follow {d : Discovery} {graph next : Graph} {node : Node} {frames : List Frame}
    {overflow : Overflow} (hnode : graph.get? node.offset = some node)
    (h : (d.follow graph node overflow).outcome = .ok (next, frames)) :
    next.room = graph.room := by
  obtain ⟨inputs, inferred, rfl⟩ := graph_of_follow h
  have := Graph.room_insert { node with inputs := inputs, inferred := inferred } hnode
  exact Nat.add_right_cancel this

/-- A visit drops the frame, or uses up room of the recorded frames, or finds a new offset. -/
theorem visit_progress {d : Discovery} {graph next : Graph} {frame : Frame} {frames : List Frame}
    {overflow : Overflow} (h : (d.visit graph frame overflow).outcome = .ok (next, frames)) :
    (next = graph ∧ frames = []) ∨ (next.size = graph.size ∧ next.room < graph.room) ∨
      next.size = graph.size + 1 := by
  unfold visit at h
  split at h
  · next node hget =>
    have hoffset := Graph.offset_of_get? hget
    obtain ⟨⟨merged, grew⟩, hmerge, h⟩ := Traced.outcome_bind_eq_ok.1 h
    cases grew with
    | false =>
      cases h
      exact .inl ⟨rfl, rfl⟩
    | true =>
      obtain ⟨_, _, h⟩ := Traced.outcome_bind_eq_ok.1 h
      have hlt := (Frame.room_of_merge hmerge).2 rfl
      have hget : graph.get? node.offset = some node := by rw [hoffset, hget]
      have hself := Graph.get?_insert_self graph { node with frame := merged }
      have hsize := Graph.size_insert_of_some { node with frame := merged } hget
      have hroom := Graph.room_insert { node with frame := merged } hget
      refine .inr (.inl ⟨(size_of_follow hself h).trans hsize, ?_⟩)
      rw [room_of_follow hself h]
      simp only at hroom
      omega
  · next hget =>
    obtain ⟨node, hdecode, h⟩ := Traced.outcome_bind_eq_ok.1 h
    obtain ⟨_, _, h⟩ := Traced.outcome_bind_eq_ok.1 h
    have hget : graph.get? node.offset = none := by rw [offset_of_decode hdecode, hget]
    have hself := Graph.get?_insert_self graph node
    exact .inr (.inr ((size_of_follow hself h).trans (Graph.size_insert_of_none node hget)))

end Discovery

end StackLift
