import StackLift.Proofs.Decoding
import StackLift.Proofs.Slots
import StackLift.Proofs.Stages

namespace StackLift

/-- The instruction is what decodes where its frame stands, under the key of the frame. -/
def Node.Stands (node : Node) (image : Image) (isa : InstructionSet) : Prop :=
  image.Stands isa node.frame.key node.frame.ip.toNat node.toInstruction

namespace Discovery

variable {d : Discovery} {image : Image} {exports rest : List Export} {graph next final : Graph}
  {frame : Frame} {frames : List Frame} {node : Node} {s : Search}

theorem Arrives.stands (h : d.Arrives graph frame node)
    (hold : ∀ old, graph.get? frame.ip = some old → old.Stands d.image d.isa) :
    node.Stands d.image d.isa := by
  cases h with
  | found _ hdecode =>
    obtain ⟨hstands, hfresh⟩ := stands_of_decode hdecode
    rw [hfresh]
    exact hstands
  | grown hget hmerge =>
    have hstands := hold _ hget
    obtain ⟨hip, hkey⟩ := Frame.place_of_merge hmerge
    rw [Node.Stands, ← hip, ← hkey] at hstands
    exact hstands

/-- What is recorded stands in the image where it is recorded. -/
theorem Passes.stands (h : d.Passes exports s) :
    ∀ offset node, s.graph.get? offset = some node → node.Stands d.image d.isa := by
  apply h.forall_nodes (P := fun _ node => node.Stands d.image d.isa) (fun _ hp => hp)
  intro graph next frame frames rest node known call e _ _ hold harrives hknown _
  have hstands := harrives.stands fun old hget => hold _ old hget
  rw [Node.Stands, hknown.toInstruction_eq, hknown.frame_eq]
  exact hstands

/-- A visit goes the same way over an image that has the bytes of the instruction that it leaves
where the frame stands. -/
theorem visit_of_agreesOn (h : (d.visit graph frame).outcome = .ok (next, frames))
    (hagrees : ∀ node, next.get? frame.ip = some node →
      image.AgreesOn d.image node.toInstruction) :
    ({ d with image := image }.visit graph frame).outcome = .ok (next, frames) := by
  cases hget : graph.get? frame.ip with
  | some node =>
    simp only [visit, hget] at h ⊢
    exact h
  | none =>
    simp only [visit, hget] at h ⊢
    obtain ⟨node, hdecode, hrest⟩ := Traced.outcome_bind_eq_ok.1 h
    obtain ⟨_, _, hfollow⟩ := Traced.outcome_bind_eq_ok.1 hrest
    obtain ⟨inputs, inferred, hnext⟩ := graph_of_follow hfollow
    have hknown : next.get? frame.ip =
        some { node with inputs := inputs, inferred := inferred } := by
      rw [hnext, ← offset_of_decode hdecode]
      exact Graph.get?_insert_self ..
    have hbytes := hagrees _ hknown
    obtain ⟨hstands, hfresh⟩ := stands_of_decode hdecode
    have hagain : ({ d with image := image } : Discovery).decode frame = .ok node := by
      rw [hfresh]
      exact decode_of_stands (hstands.congr hbytes)
    exact Traced.outcome_bind_eq_ok.2 ⟨node, hagain, hrest⟩

section

variable (hfinal : (d.discover exports).outcome = .ok final)
  (hagrees : ∀ offset node, final.get? offset = some node →
    image.AgreesOn d.image node.toInstruction)
include hfinal hagrees

theorem Stage.of_agreesOn (h : d.Stage exports rest s) :
    ({ d with image := image } : Discovery).Stage exports rest s := by
  induction h with
  | start => exact .start
  | enter _ ih => exact ih.enter
  | visit hstage hvisit ih =>
    apply ih.visit
    apply visit_of_agreesOn hvisit
    intro old hold
    obtain ⟨node, hnode, hgrown⟩ := (hstage.visit hvisit).extends hfinal _ old hold
    rw [← hgrown.instruction]
    exact hagrees _ node hnode

end

/-- The recorded instructions lie within the image, and every image that has their bytes gives the
same graph. -/
theorem discover_of_agreesOn (hfinal : (d.discover exports).outcome = .ok final) :
    (∀ offset node, final.get? offset = some node →
      offset.toNat + node.size.toNat ≤ d.image.size) ∧
    ∀ image : Image, (∀ offset node, final.get? offset = some node →
        image.AgreesOn d.image node.toInstruction) →
      ({ d with image := image }.discover exports).outcome = .ok final := by
  constructor
  · intro offset node hnode
    have hstands := (passes_of_discover hfinal).stands offset node hnode
    have hle := Image.Stands.le_size hstands
    rw [← hstands.offset, Graph.offset_of_get? hnode] at hle
    exact hle
  · intro image hagrees
    have hstage := (stage_of_discover hfinal).of_agreesOn hfinal hagrees
    rw [← hstage.outcome_eq, run_nil]
    rfl

/-- `PUSHI_DWORD 9; JMP`, three bytes that are jumped over, and `RET` with something behind it. -/
def leaping (skipped behind : List UInt8) : Discovery :=
  ⟨(maskBytes 7 0 ([0x04, 9, 0, 0, 0, 0x30] ++ skipped ++ [0x34] ++ behind)).toArray, .reference,
    .ofPresets []⟩

/-- Neither what is jumped over nor what stands behind the code makes a difference. -/
theorem leaping_discover_of_agreesOn :
    (leaping [4, 5, 6] [7, 8]).image ≠ (leaping [1, 2, 3] []).image ∧
    ∃ graph, ((leaping [1, 2, 3] []).discover [⟨0, 7⟩]).outcome = .ok graph ∧
      (∀ offset node, graph.get? offset = some node →
        (leaping [4, 5, 6] [7, 8]).image.AgreesOn (leaping [1, 2, 3] []).image
          node.toInstruction) ∧
      graph.offsets = [0, 5, 9] ∧
      ((leaping [4, 5, 6] [7, 8]).discover [⟨0, 7⟩]).outcome = .ok graph := by
  have hrun : ((leaping [1, 2, 3] []).discoverWithin 40 [⟨0, 7⟩]).map (fun outcome => outcome.map
      fun graph => (graph.offsets, graph.nodes.all fun node =>
        (leaping [4, 5, 6] [7, 8]).image.AgreesOn (leaping [1, 2, 3] []).image
          node.toInstruction)) = some (.ok ([0, 5, 9], true)) := by cbv
  obtain ⟨graph, hgraph, hfacts⟩ := exists_discovered _ hrun
  obtain ⟨hoffsets, hall⟩ := Prod.mk.inj hfacts
  have hagrees : ∀ offset node, graph.get? offset = some node →
      (leaping [4, 5, 6] [7, 8]).image.AgreesOn (leaping [1, 2, 3] []).image
        node.toInstruction := by
    intro offset node hnode
    have hmem : node ∈ graph.nodes := by
      rw [Graph.mem_nodes_iff, Graph.offset_of_get? hnode]
      exact hnode
    exact of_decide_eq_true (List.all_eq_true.1 hall node hmem)
  exact ⟨by decide, graph, hgraph, hagrees, hoffsets, (discover_of_agreesOn hgraph).2 _ hagrees⟩

end Discovery

end StackLift
