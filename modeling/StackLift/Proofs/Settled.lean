import Mathlib
import StackLift.Image.Assembler
import StackLift.Proofs.Paths
import StackLift.Proofs.Termination

namespace StackLift

def Graph.Due (graph : Graph) (agenda : List Frame) (f : Frame) : Prop :=
  f ∈ agenda ∨ graph.Covers f

theorem Graph.covers_of_due_nil {graph : Graph} {f : Frame} (h : graph.Due [] f) :
    graph.Covers f :=
  h.resolve_left List.not_mem_nil

/-- The effect of a node on its own frame: what it pops is recorded, and what it hands on is due. -/
structure Graph.Settles (graph : Graph) (agenda : List Frame) (node : Node) (e : Effect) :
    Prop where
  effect : node.effectOn node.frame = .ok e
  inputs : List.Forall₂ Provenance.Covers node.inputs e.popped
  successors : ∀ t ∈ node.successors, graph.Due agenda (e.frame.moveTo t)

structure Graph.Settling (graph : Graph) (isa : InstructionSet) (agenda : List Frame) : Prop where
  drawnFrom : graph.DrawnFrom isa
  settles : ∀ offset node, graph.get? offset = some node → ∃ e, graph.Settles agenda node e

theorem recordInputs_covers {offset : UInt32} {recorded popped inputs : List Provenance}
    (h : recordInputs offset recorded popped = .ok inputs) :
    List.Forall₂ Provenance.Covers inputs popped := by
  rw [recordInputs] at h
  split at h
  · cases h
    exact List.forall₂_same.2 fun v _ => .refl v
  · split at h
    · next hlength =>
      cases h
      exact (Frame.mergeStack_covers hlength).2
    · cases h

namespace Discovery

variable {d : Discovery} {graph next final : Graph} {frame : Frame} {frames rest : List Frame}

section

variable (hisa : d.isa.CallsReturn) (hgraph : graph.DrawnFrom d.isa)
  (h : (d.visit graph frame).outcome = .ok (next, frames))
include hisa hgraph h

theorem visit_due {f : Frame} (hf : graph.Due (frame :: rest) f) :
    next.Due (frames ++ rest) f := by
  rcases hf with hf | hf
  · rcases List.mem_cons.1 hf with rfl | hf
    · exact .inr (visit_covers hisa hgraph h)
    · exact .inl (List.mem_append_right _ hf)
  · exact .inr (visit_keeps_covers hisa hgraph h hf)

end

theorem Follows.settles {node known : Node} {e : Effect} (h : Follows node known e)
    (hframes : frames = known.successors.reverse.map e.frame.moveTo) :
    next.Settles (frames ++ rest) known e := by
  refine ⟨h.effect, recordInputs_covers h.inputs, ?_⟩
  intro t ht
  apply Or.inl
  rw [hframes]
  exact List.mem_append_left _ (List.mem_map_of_mem (List.mem_reverse.2 ht))

theorem visit_settling (hisa : d.isa.CallsReturn) (hs : graph.Settling d.isa (frame :: rest))
    (h : (d.visit graph frame).outcome = .ok (next, frames)) :
    next.Settling d.isa (frames ++ rest) := by
  refine ⟨visit_drawnFrom hisa hs.drawnFrom h, ?_⟩
  intro offset node hnode
  -- A node of the graph keeps its effect; only what is due may move from the agenda to the graph.
  have hkeeps : graph.get? offset = some node → ∃ e, next.Settles (frames ++ rest) node e := by
    intro hold
    obtain ⟨e, he⟩ := hs.settles _ _ hold
    exact ⟨e, he.effect, he.inputs, fun t ht => visit_due hisa hs.drawnFrom h (he.successors t ht)⟩
  rcases visit_cases hisa hs.drawnFrom h with ⟨_, rfl, _⟩ | ⟨_, known, e, _, hknown, hget, hframes⟩
  · exact hkeeps hnode
  · rw [hget] at hnode
    split at hnode
    · cases hnode
      exact ⟨e, hknown.settles hframes⟩
    · exact hkeeps hnode

theorem discover_settling (hisa : d.isa.CallsReturn) {exports : List Export}
    (h : (d.discover exports).outcome = .ok final) : final.Settling d.isa [] := by
  refine discover_preserves (P := fun graph agenda => graph.Settling d.isa agenda) ?_ ?_
    (fun hs hvisit => visit_settling hisa hs hvisit) h
  · exact ⟨Graph.drawnFrom_empty _, fun _ _ hnode => (nomatch hnode)⟩
  · intro graph entry _ hs
    refine ⟨hs.drawnFrom, fun offset node hnode => ?_⟩
    obtain ⟨e, he⟩ := hs.settles _ _ hnode
    exact ⟨e, he.effect, he.inputs, fun t ht => .inr (Graph.covers_of_due_nil (he.successors t ht))⟩

section

variable (hisa : d.isa.CallsReturn) (hgraph : graph.DrawnFrom d.isa) {f : Frame}
include hisa hgraph

theorem run_covers {agenda : List Frame} (hf : graph.Due agenda f)
    (h : (d.run graph agenda).outcome = .ok next) : next.DrawnFrom d.isa ∧ next.Covers f := by
  have hnext : next.DrawnFrom d.isa ∧ next.Due [] f :=
    run_preserves (P := fun graph agenda => graph.DrawnFrom d.isa ∧ graph.Due agenda f)
      (fun hp hvisit => ⟨visit_drawnFrom hisa hp.1 hvisit, visit_due hisa hp.1 hvisit hp.2⟩)
      ⟨hgraph, hf⟩ h
  exact ⟨hnext.1, Graph.covers_of_due_nil hnext.2⟩

theorem enterAll_keeps_covers {exports : List Export} (hf : graph.Covers f)
    (h : (d.enterAll graph exports).outcome = .ok final) : final.Covers f :=
  (enterAll_preserves (P := fun graph _ => graph.DrawnFrom d.isa ∧ graph.Covers f)
    (fun _ hp => hp)
    (fun hp hvisit => ⟨visit_drawnFrom hisa hp.1 hvisit, visit_keeps_covers hisa hp.1 hvisit hp.2⟩)
    ⟨hgraph, hf⟩ h).2

end

/-- The frame of every export is covered from the moment its search ends. -/
theorem enterAll_covers (hisa : d.isa.CallsReturn) {exports : List Export}
    (hgraph : graph.DrawnFrom d.isa) (h : (d.enterAll graph exports).outcome = .ok final) :
    ∀ entry ∈ exports, final.Covers (.start entry.offset entry.key) := by
  induction exports generalizing graph with
  | nil => exact fun _ hentry => (nomatch hentry)
  | cons entry rest ih =>
    rw [outcome_enterAll_cons] at h
    obtain ⟨middle, hrun, hrest⟩ := bind_eq_ok.1 h
    obtain ⟨hmiddle, hcovers⟩ := run_covers hisa hgraph (.inl List.mem_cons_self) hrun
    intro other hother
    rcases List.mem_cons.1 hother with rfl | hother
    · exact enterAll_keeps_covers hisa hmiddle hcovers hrest
    · exact ih hmiddle hrest other hother

theorem discover_covers (hisa : d.isa.CallsReturn) {exports : List Export}
    (h : (d.discover exports).outcome = .ok final) :
    ∀ entry ∈ exports, final.Covers (.start entry.offset entry.key) := by
  rw [outcome_discover] at h
  exact enterAll_covers hisa (Graph.drawnFrom_empty _) h

end Discovery

/-- On every path the instructions can be applied one after the other, and leave the stack as deep
as it is recorded. -/
theorem Graph.depth_frameAlong {graph : Graph} {isa : InstructionSet} {start : Frame}
    (hs : graph.Settling isa []) (hstart : graph.Covers start) {offset : UInt32}
    {earlier : List UInt32} (hpath : graph.Path start.ip (offset :: earlier)) :
    ∃ node f, graph.get? offset = some node ∧ graph.frameAlong start earlier = some f ∧
      f.depth = node.frame.depth := by
  generalize hp : offset :: earlier = path at hpath
  induction hpath generalizing offset earlier with
  | start =>
    cases hp
    obtain ⟨node, hnode, hcovers⟩ := hstart
    exact ⟨node, start, hnode, rfl, hcovers.depth_eq.symm⟩
  | @step t _ _ _ ht ih =>
    cases hp
    obtain ⟨node, f, hnode, hf, hdepth⟩ := ih rfl
    obtain ⟨e, he⟩ := hs.settles _ _ hnode
    obtain ⟨e', he', hdepth'⟩ := Frame.effect_of_depth_eq he.effect hdepth
    obtain ⟨known, hknown, ht⟩ := mem_successors_iff.1 ht
    rw [hnode] at hknown
    cases hknown
    obtain ⟨target, htarget, hcovers⟩ := covers_of_due_nil (he.successors t ht)
    refine ⟨target, e'.frame, htarget, frameAlong_cons hnode hf he', ?_⟩
    rw [hdepth', hcovers.depth_eq]
    rfl

namespace Discovery

/-- Where every recorded successor leads, and where every export starts, the graph already covers
what arrives; so on every path the stack is as deep as it is recorded. -/
theorem discover_settled {d : Discovery} (hisa : d.isa.CallsReturn) {exports : List Export}
    {graph : Graph} (h : (d.discover exports).outcome = .ok graph) :
    (∀ offset node, graph.get? offset = some node →
      ∃ e, node.effectOn node.frame = .ok e ∧ e.popped.length = node.inputs.length ∧
        ∀ t ∈ node.successors, ∃ target, graph.get? t = some target ∧
          target.frame.merge (e.frame.moveTo t) = .ok (target.frame, false)) ∧
    ∀ entry ∈ exports,
      (∃ target, graph.get? entry.offset = some target ∧
        target.frame.merge (.start entry.offset entry.key) = .ok (target.frame, false)) ∧
      ∀ offset earlier, graph.Path entry.offset (offset :: earlier) →
        ∃ node f, graph.get? offset = some node ∧
          graph.frameAlong (.start entry.offset entry.key) earlier = some f ∧
          f.depth = node.frame.depth := by
  have hs := discover_settling hisa h
  constructor
  · intro offset node hnode
    obtain ⟨e, he⟩ := hs.settles offset node hnode
    refine ⟨e, he.effect, he.inputs.length_eq.symm, ?_⟩
    intro t ht
    obtain ⟨target, htarget, hcovers⟩ := Graph.covers_of_due_nil (he.successors t ht)
    exact ⟨target, htarget, hcovers.merge_eq⟩
  · intro entry hentry
    have hcovers := discover_covers hisa h entry hentry
    constructor
    · obtain ⟨target, htarget, hcovers⟩ := hcovers
      exact ⟨target, htarget, hcovers.merge_eq⟩
    · intro offset earlier hpath
      exact Graph.depth_frameAlong hs hcovers hpath

/-- The loop `PUSHR_DWORD R0; PUSHI_DWORD 5; POP R0; POP R1; PUSHI_DWORD 0; JMP`. -/
def rotating : Discovery :=
  ⟨(maskBytes 0 0 [0x02, 0, 0x04, 5, 0, 0, 0, 0x06, 0, 0x06, 1, 0x04, 0, 0, 0, 0, 0x30]).toArray,
    .reference, .ofPresets []⟩

theorem rotating_settled :
    rotating.isa.CallsReturn ∧
    ∃ graph, (rotating.discover [⟨0, 0⟩, ⟨11, 0⟩]).outcome = .ok graph ∧
      (∃ node e target, graph.get? 16 = some node ∧ node.effectOn node.frame = .ok e ∧
        node.successors = [0] ∧ graph.get? 0 = some target ∧
        target.frame.merge (e.frame.moveTo 0) = .ok (target.frame, false)) ∧
      ∃ target, graph.get? 11 = some target ∧
        target.frame.merge (.start 11 0) = .ok (target.frame, false) := by
  have hisa : rotating.isa.CallsReturn := InstructionSet.reference_callsReturn
  have hrun : (rotating.discoverWithin 40 [⟨0, 0⟩, ⟨11, 0⟩]).map (fun outcome => outcome.map
      fun graph => (graph.get? 16).map Node.successors) = some (.ok (some [0])) := by cbv
  obtain ⟨graph, hgraph, hsuccessors⟩ := exists_discovered _ hrun
  obtain ⟨node, hnode, hsuccessors⟩ := Option.map_eq_some_iff.1 hsuccessors
  obtain ⟨hnodes, hexports⟩ := discover_settled hisa hgraph
  obtain ⟨e, he, _, htargets⟩ := hnodes 16 node hnode
  obtain ⟨target, htarget, hmerge⟩ := htargets 0 (by simp [hsuccessors])
  refine ⟨hisa, graph, hgraph, ⟨node, e, target, hnode, he, hsuccessors, htarget, hmerge⟩, ?_⟩
  exact (hexports ⟨11, 0⟩ (by simp)).1

end Discovery

end StackLift
