import StackLift.Listing.Build
import StackLift.Proofs.Calls
import StackLift.Proofs.Grounded
import StackLift.Proofs.Inputs
import StackLift.Proofs.Slots

namespace StackLift

namespace Graph

variable {graph next : Graph} {depth : Nat}

def Underpins (graph : Graph) (depth : Nat) : Prop :=
  ∀ k < depth, ∃ offset node, graph.get? offset = some node ∧ node.frame.depth = k

theorem Underpins.mono (h : graph.Underpins depth) (hext : next.Extends graph) :
    next.Underpins depth := by
  intro k hk
  obtain ⟨offset, old, hold, rfl⟩ := h k hk
  obtain ⟨node, hnode, hgrown⟩ := hext offset old hold
  exact ⟨offset, node, hnode, hgrown.frame.depth_eq⟩

theorem Underpins.succ (h : graph.Underpins depth) {offset : UInt32} {node : Node}
    (hnode : graph.get? offset = some node) (hdepth : node.frame.depth = depth) :
    graph.Underpins (depth + 1) := by
  intro k hk
  rcases Nat.lt_succ_iff_lt_or_eq.1 hk with hk | rfl
  · exact h k hk
  · exact ⟨offset, node, hnode, hdepth⟩

theorem Underpins.le_size (h : graph.Underpins depth) : depth ≤ graph.size := by
  have hsubset : List.range depth ⊆ graph.nodes.map fun node => node.frame.depth := by
    intro k hk
    obtain ⟨offset, node, hnode, rfl⟩ := h k (List.mem_range.1 hk)
    have hoffset := offset_of_get? hnode
    exact List.mem_map.2 ⟨node, mem_nodes_iff.2 (hoffset ▸ hnode), rfl⟩
  have hle := (List.subperm_of_subset List.nodup_range hsubset).length_le
  rw [List.length_range, List.length_map] at hle
  exact hle.trans_eq (List.length_map _)

def Roomy (graph : Graph) : Prop :=
  ∀ offset node, graph.get? offset = some node →
    Reservable node.argumentCount Expression.byteSize

/-- Every depth below a frame of the graph, or below one that waits, is that of some instruction. -/
structure Underpinned (graph : Graph) (agenda : List Frame) : Prop where
  nodes : ∀ offset node, graph.get? offset = some node → graph.Underpins node.frame.depth
  waiting : ∀ f ∈ agenda, graph.Underpins f.depth

end Graph

/-- An instruction leaves at most one cell more than it finds. -/
theorem Frame.depth_effect_le {f : Frame} {i : Instruction} {s : Option Signature} {e : Effect}
    (h : f.effect i s = .ok e) : e.frame.depth ≤ f.depth + 1 := by
  obtain ⟨count, kind, _, _, _, rfl⟩ := effect_cases h
  rw [depth_behindPush, depth_behindPops]
  split <;> omega

theorem Node.Spends.argumentCount_le {node : Node} (h : node.Spends) :
    node.argumentCount ≤ node.inputs.length := by
  rw [argumentCount]
  cases hcall : node.call? with
  | none => exact Nat.le_refl _
  | some call => exact (h.length call hcall).symm ▸ Nat.le_succ _

namespace Discovery

variable {d : Discovery} {exports : List Export} {graph next : Graph} {frame : Frame}
  {frames rest : List Frame} {s : Search}

theorem visit_underpinned (h : (d.visit graph frame).outcome = .ok (next, frames))
    (hr : graph.Recorded) (hp : graph.Underpinned (frame :: rest)) :
    next.Underpinned (frames ++ rest) := by
  have hext := visit_extends h hr
  have hold : ∀ f ∈ frame :: rest, next.Underpins f.depth := fun f hf => (hp.waiting f hf).mono hext
  rcases visit_followed h with
    ⟨_, rfl, rfl⟩ | ⟨node, known, _, e, harrives, hknown, hget, rfl⟩
  · exact ⟨hp.nodes, fun f hf => hold f (List.mem_cons_of_mem _ hf)⟩
  · have hself : next.get? frame.ip = some known := by rw [hget, if_pos rfl]
    have hdepth : known.frame.depth = frame.depth := by
      rw [hknown.frame_eq]
      exact harrives.covers_frame.depth_eq
    have hframe := hold frame List.mem_cons_self
    refine ⟨?_, ?_⟩
    · intro offset other hother
      rw [hget] at hother
      split at hother
      · cases hother
        rw [hdepth]
        exact hframe
      · exact (hp.nodes offset other hother).mono hext
    · intro f hf
      rcases List.mem_append.1 hf with hf | hf
      · obtain ⟨t, _, rfl⟩ := List.mem_map.1 hf
        have hle := Frame.depth_effect_le hknown.effect
        rw [← hknown.frame_eq, hdepth] at hle
        exact fun k hk => hframe.succ hself hdepth k (Nat.lt_of_lt_of_le hk hle)
      · exact hold f (List.mem_cons_of_mem _ hf)

theorem Passes.underpinned (h : d.Passes exports s) : s.graph.Underpinned s.agenda := by
  induction h with
  | start => exact ⟨fun _ _ hnode => (nomatch hnode), fun _ hf => (nomatch hf)⟩
  | enter _ _ ih =>
    refine ⟨ih.nodes, fun f hf k hk => ?_⟩
    rw [List.mem_singleton.1 hf] at hk
    exact absurd hk (Nat.not_lt_zero k)
  | visit hp hvisit ih => exact visit_underpinned hvisit hp.recorded ih

/-- No stack is deeper than there are instructions. -/
theorem Passes.depth_le_size (h : d.Passes exports s) {offset : UInt32} {node : Node}
    (hnode : s.graph.get? offset = some node) : node.frame.depth ≤ s.graph.size :=
  (h.underpinned.nodes offset node hnode).le_size

theorem Passes.roomy (h : d.Passes exports s) : s.graph.Roomy := by
  intro offset node hnode
  have hroom : Reservable UInt32.size Expression.byteSize := by decide
  apply hroom.mono
  calc node.argumentCount
    _ ≤ node.inputs.length := (h.spends offset node hnode).argumentCount_le
    _ ≤ node.frame.depth := (h.inputsOnTop offset node hnode).length_le
    _ ≤ s.graph.size := h.depth_le_size hnode
    _ ≤ UInt32.size := s.graph.size_le

end Discovery

end StackLift
