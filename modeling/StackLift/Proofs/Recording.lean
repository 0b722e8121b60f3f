import StackLift.Proofs.Calls
import StackLift.Proofs.Reading
import StackLift.Proofs.Selectors

namespace StackLift

theorem getElem?_reverse_take {α : Type} {l : List α} {count k : Nat} (hk : k < count)
    (hle : count ≤ l.length) : (l.take count).reverse[k]? = l[count - 1 - k]? := by
  have hlength : (l.take count).length = count := List.length_take_of_le hle
  have hcell : k < (l.take count).length := by rw [hlength]; exact hk
  rw [List.getElem?_reverse hcell, hlength, List.getElem?_take_of_lt (by omega)]

namespace Discovery

variable {d : Discovery} {exports rest : List Export} {graph : Graph} {frame : Frame}
  {node known : Node} {call : Option Call} {e : Effect} {offset : UInt32} {s : Search}

/-- The node is what a visit made of it at some stage, when `call` was the service that it
called. -/
def LastFollowed (d : Discovery) (exports : List Export) (node : Node) (call : Option Call) :
    Prop :=
  ∃ rest graph frame waiting before e, d.Stage exports rest ⟨graph, frame :: waiting⟩ ∧
    d.Arrives graph frame before ∧ d.Followed (graph.insert before) before node call e

/-- The inputs of an instruction are the cells that it pops from the frame recorded with it, the
deepest first, and the instruction is what decodes where that frame stands. -/
structure Mirrors (d : Discovery) (exports : List Export) (node : Node) : Prop where
  pops : ∃ call, d.LastFollowed exports node call ∧
    node.opcode.pops.count? (call.map Call.signature) = some node.inputs.length ∧
    (node.opcode.variableArity = true → node.opcode.transfersControl = false → node.call? = call)
  fits : node.inputs.length ≤ node.frame.depth
  inputs : ∀ k < node.inputs.length,
    node.inputs[k]? = node.frame.stack[node.inputs.length - 1 - k]?
  decodes : d.image.decode d.isa node.frame.key node.offset.toNat =
    (.ok ⟨node.opcode, node.operand⟩, node.offset.toNat + node.size.toNat)
  ip : node.frame.ip = node.offset

theorem Followed.count?_inputs (h : d.Followed graph node known call e) :
    known.opcode.pops.count? (call.map Call.signature) = some known.inputs.length := by
  have hcount := Frame.count?_popped h.effect
  rw [(recordInputs_covers h.inputs).length_eq, h.toInstruction_eq]
  exact hcount

/-- At every stage, what is recorded is what some visit made of it. -/
theorem Stage.lastFollowed (h : d.Stage exports rest s) :
    ∀ offset node, s.graph.get? offset = some node → ∃ call, d.LastFollowed exports node call := by
  induction h with
  | start => exact fun _ _ hnode => (nomatch hnode)
  | enter _ ih => exact ih
  | visit hstage hvisit ih =>
    apply visit_forall_nodes (P := fun _ node => ∃ call, d.LastFollowed exports node call) hvisit
      hstage.passes.recorded ih (fun _ hp => hp)
    intro before known call e harrives hknown _
    exact ⟨call, _, _, _, _, before, e, hstage, harrives, hknown⟩

theorem Stage.mirrors (h : d.Stage exports rest s) (hnode : s.graph.get? offset = some node) :
    d.Mirrors exports node := by
  have htop := h.passes.inputsOnTop offset node hnode
  have hstands := h.passes.stands offset node hnode
  have hfits := htop.length_le
  obtain ⟨call, hlast⟩ := h.lastFollowed offset node hnode
  refine ⟨⟨call, hlast, ?_⟩, hfits, ?_, ?_, (UInt32.toNat_inj.1 hstands.offset).symm⟩
  · obtain ⟨_, _, _, _, _, _, _, _, hfollowed⟩ := hlast
    exact ⟨hfollowed.count?_inputs, hfollowed.call?_eq⟩
  · intro k hk
    have hcell := congrArg (·[k]?) htop
    rwa [getElem?_reverse_take hk hfits] at hcell
  · have hdecode := hstands.decode_eq
    rwa [← hstands.offset] at hdecode

/-- At every stage of a discovery, whether it will succeed or not, and in its graph the inputs of
every instruction mirror its frame. -/
theorem discover_mirrors (d : Discovery) (exports : List Export) :
    (∀ rest s, d.Stage exports rest s → ∀ offset node, s.graph.get? offset = some node →
      d.Mirrors exports node) ∧
    ∀ graph, (d.discover exports).outcome = .ok graph → ∀ offset node,
      graph.get? offset = some node → d.Mirrors exports node :=
  ⟨fun _ _ h _ _ hnode => h.mirrors hnode,
    fun _ h _ _ hnode => (stage_of_discover h).mirrors hnode⟩

/-- The `VCALL` that is reached with two selectors consumes what its joined frame holds. -/
theorem choosing_mirrors :
    ∃ graph node, (choosing.discover [⟨0, 0⟩]).outcome = .ok graph ∧
      graph.get? 32 = some node ∧ node.opcode.code = Code.callService ∧
      node.inputs.map (fun input => input.sources.toList) = [[0], [16, 27]] ∧
      choosing.Mirrors [⟨0, 0⟩] node := by
  have hrun : (choosing.discoverWithin 40 [⟨0, 0⟩]).map (fun outcome => outcome.map fun graph =>
      (graph.get? 32).map fun node =>
        (node.opcode.code, node.inputs.map fun input => input.sources.toList)) =
      some (.ok (some (Code.callService, [[0], [16, 27]]))) := by cbv
  obtain ⟨graph, hgraph, hfacts⟩ := exists_discovered _ hrun
  obtain ⟨node, hnode, hfacts⟩ := Option.map_eq_some_iff.1 hfacts
  obtain ⟨hcode, hinputs⟩ := Prod.mk.inj hfacts
  exact ⟨graph, node, hgraph, hnode, hcode, hinputs,
    (discover_mirrors choosing [⟨0, 0⟩]).2 graph hgraph 32 node hnode⟩

end Discovery

end StackLift
