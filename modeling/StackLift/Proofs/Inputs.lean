import StackLift.Proofs.Growth

namespace StackLift

/-- The inputs are the top cells of the frame, the deepest first. -/
def Node.InputsOnTop (node : Node) : Prop :=
  node.inputs = (node.frame.stack.take node.inputs.length).reverse

theorem Node.InputsOnTop.getLast? {node : Node} (h : node.InputsOnTop) (hne : node.inputs ≠ []) :
    node.inputs.getLast? = node.frame.top? := by
  have hpos : node.inputs.length ≠ 0 := fun hzero => hne (List.length_eq_zero_iff.1 hzero)
  rw [h, List.getLast?_reverse, List.head?_take, if_neg hpos, Frame.top?]

theorem Node.InputsOnTop.mem_stack {node : Node} (h : node.InputsOnTop) {input : Provenance}
    (hinput : input ∈ node.inputs) : input ∈ node.frame.stack := by
  rw [h] at hinput
  exact List.mem_of_mem_take (List.mem_reverse.1 hinput)

theorem Node.InputsOnTop.length_le {node : Node} (h : node.InputsOnTop) :
    node.inputs.length ≤ node.frame.depth := by
  have hlength := congrArg List.length h
  rw [List.length_reverse, List.length_take] at hlength
  exact hlength.trans_le (Nat.min_le_right _ _)

theorem recordInputs_eq_popped {offset : UInt32} {recorded popped inputs : List Provenance}
    (h : recordInputs offset recorded popped = .ok inputs)
    (hcovers : recorded.length = popped.length → List.Forall₂ Provenance.Covers popped recorded) :
    inputs = popped := by
  rw [recordInputs] at h
  split at h
  · cases h
    rfl
  · split at h
    · next hlength =>
      cases h
      have hcomm := Frame.mergeStack_comm recorded popped
      exact hcomm.trans (Frame.mergeStack_of_covers (hcovers hlength))
    · cases h

namespace Discovery

variable {d : Discovery} {exports : List Export} {graph : Graph} {frame : Frame}
  {node known : Node} {call : Option Call} {e : Effect} {s : Search}

/-- Where a frame arrives, the top cells cover the inputs recorded so far. -/
theorem Arrives.covers_inputs (h : d.Arrives graph frame node)
    (hold : ∀ old, graph.get? frame.ip = some old → old.InputsOnTop) :
    List.Forall₂ Provenance.Covers (node.frame.stack.take node.inputs.length).reverse
      node.inputs := by
  cases h with
  | found _ hdecode =>
    rw [(decode_cases hdecode).2.2.1]
    exact .nil
  | @grown old merged hget hmerge =>
    have hcells := List.forall₂_take old.inputs.length (Frame.merge_covers hmerge).1.stack
    have hcovers := List.forall₂_reverse_iff.2 hcells
    rw [← hold old hget] at hcovers
    exact hcovers

theorem Followed.inputs_eq_popped (h : d.Followed graph node known call e)
    (hcovers : List.Forall₂ Provenance.Covers
      (node.frame.stack.take node.inputs.length).reverse node.inputs) :
    known.inputs = e.popped := by
  apply recordInputs_eq_popped h.inputs
  intro hlength
  rw [hlength, ← Frame.popped_eq h.effect] at hcovers
  exact hcovers

/-- The inputs of every instruction are the top cells of its frame, whenever a frame is about to be
visited and in the end. -/
theorem Passes.inputsOnTop (h : d.Passes exports s) :
    ∀ offset node, s.graph.get? offset = some node → node.InputsOnTop := by
  apply h.forall_nodes (P := fun _ node => node.InputsOnTop) (fun _ hp => hp)
  intro graph next frame frames rest node known call e _ _ hold harrives hknown _
  have hcovers := harrives.covers_inputs fun old hget => hold _ old hget
  rw [Node.InputsOnTop, hknown.inputs_eq_popped hcovers, hknown.frame_eq]
  exact Frame.popped_eq hknown.effect

end Discovery

end StackLift
