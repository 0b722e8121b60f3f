import StackLift.Proofs.Decoding
import StackLift.Proofs.Effect
import StackLift.Proofs.Slots
import StackLift.Proofs.Sources
import StackLift.Proofs.Termination

namespace StackLift

theorem insertEntry_eq_append {α : Type} {a : UInt32} (value : α) {l : List (UInt32 × α)}
    (h : ∀ entry ∈ l, entry.1 < a) : insertEntry a value l = l ++ [(a, value)] := by
  induction l with
  | nil => rfl
  | cons entry rest ih =>
    have hlt := h entry List.mem_cons_self
    rw [insertEntry, if_neg (UInt32.lt_asymm hlt), if_neg (UInt32.ne_of_lt hlt).symm,
      ih fun e he => h e (List.mem_cons_of_mem _ he), List.cons_append]

namespace Graph

theorem nodes_insert_last {graph : Graph} {node : Node}
    (h : ∀ earlier ∈ graph.nodes, earlier.offset < node.offset) :
    (graph.insert node).nodes = graph.nodes ++ [node] := by
  have hentries : ∀ entry ∈ graph.byOffset.entries, entry.1 < node.offset := by
    intro entry hentry
    rw [← offset_of_mem_entries hentry]
    exact h entry.2 (List.mem_map_of_mem hentry)
  change (insertEntry node.offset node graph.byOffset.entries).map Prod.snd = _
  rw [insertEntry_eq_append node hentries, List.map_append]
  rfl

theorem lt_of_mem_insert_last {graph : Graph} {node : Node} {bound : UInt32}
    (h : ∀ earlier ∈ graph.nodes, earlier.offset < node.offset) (hlt : node.offset < bound) :
    ∀ other ∈ (graph.insert node).nodes, other.offset < bound := by
  intro other hother
  rw [nodes_insert_last h] at hother
  rcases List.mem_append.1 hother with hother | hother
  · exact UInt32.lt_trans (h other hother) hlt
  · rw [List.mem_singleton.1 hother]
    exact hlt

theorem get?_eq_none_of_lt {graph : Graph} {offset : UInt32}
    (h : ∀ node ∈ graph.nodes, node.offset < offset) : graph.get? offset = none := by
  cases hget : graph.get? offset with
  | none => rfl
  | some node =>
    have hoffset := offset_of_get? hget
    have hmem : node ∈ graph.nodes := mem_nodes_iff.2 (hoffset ▸ hget)
    exact absurd (hoffset ▸ h node hmem) (UInt32.lt_irrefl offset)

theorem insert_insert {graph : Graph} {node other : Node} (h : other.offset = node.offset) :
    (graph.insert other).insert node = graph.insert node := by
  apply ext_get?
  intro offset
  rw [get?_insert, get?_insert, get?_insert, h]
  split <;> rfl

end Graph

/-- The instruction has an effect of its own, whatever service is called, and no target. -/
structure Instruction.Plain (i : Instruction) : Prop where
  fixed : i.opcode.variableArity = false
  stays : i.opcode.transfersControl = false

structure Instruction.Falls (i : Instruction) : Prop extends i.Plain where
  flow : i.opcode.flow = .next

namespace Frame

/-- What is recorded when a frame runs through instructions one behind the other: each of them with
the frame that reaches it. -/
def along (f : Frame) : List Instruction → Except Fault (List Node)
  | [] => return []
  | i :: rest => do
    let e ← f.effect i none
    let nodes ← (e.frame.moveTo i.next).along rest
    return ⟨i, f, e.popped, .nothing⟩ :: nodes

theorem along_cons {f : Frame} {i : Instruction} {e : Effect} (h : f.effect i none = .ok e)
    (rest : List Instruction) : f.along (i :: rest) = (do
      let nodes ← (e.frame.moveTo i.next).along rest
      return ⟨i, f, e.popped, .nothing⟩ :: nodes) := by
  rw [along, h]
  rfl

theorem along_cons_of_error {f : Frame} {i : Instruction} {fault : Fault}
    (h : f.effect i none = .error fault) (rest : List Instruction) :
    f.along (i :: rest) = .error fault := by
  rw [along, h]
  rfl

theorem along_cons_eq_ok {f : Frame} {i : Instruction} {rest : List Instruction}
    {nodes : List Node} (h : f.along (i :: rest) = .ok nodes) :
    ∃ e others, f.effect i none = .ok e ∧ (e.frame.moveTo i.next).along rest = .ok others ∧
      nodes = ⟨i, f, e.popped, .nothing⟩ :: others := by
  rw [along] at h
  obtain ⟨e, heffect, h⟩ := bind_eq_ok.1 h
  obtain ⟨others, hothers, h⟩ := bind_eq_ok.1 h
  cases h
  exact ⟨e, others, heffect, hothers, rfl⟩

theorem map_toInstruction_along {f : Frame} {instructions : List Instruction} {nodes : List Node}
    (h : f.along instructions = .ok nodes) : nodes.map Node.toInstruction = instructions := by
  induction instructions generalizing f nodes with
  | nil =>
    cases h
    rfl
  | cons i rest ih =>
    obtain ⟨e, others, _, hothers, rfl⟩ := along_cons_eq_ok h
    rw [List.map_cons, ih hothers]

end Frame

namespace Discovery

variable {d : Discovery} {graph : Graph} {frame : Frame} {i last : Instruction}
  {instructions : List Instruction} {e : Effect}

theorem visit_new (hnone : graph.get? frame.ip = none)
    (h : d.image.Stands d.isa frame.key frame.ip.toNat i) (hi : i.opcode.variableArity = false) :
    (d.visit graph frame).outcome = do
      let e ← frame.effect i none
      let known : Node := ⟨i, frame, e.popped, .nothing⟩
      let inferred ← (d.resolveTarget (graph.insert known) known).outcome
      let known := { known with inferred := inferred }
      return (graph.insert known, known.successors.reverse.map e.frame.moveTo) := by
  have hcall : d.resolveCall? (graph.insert (.fresh i frame)) (.fresh i frame) = pure none := by
    rw [resolveCall?, if_neg]
    exact Bool.not_eq_true _ ▸ hi
  simp only [visit, hnone]
  rw [Traced.outcome_bind, Traced.outcome_ofExcept, decode_of_stands h]
  change (d.follow (graph.insert (.fresh i frame)) (.fresh i frame)).outcome = _
  rw [follow, hcall, Traced.outcome_bind]
  change (Traced.ofExcept (frame.effect i none) >>= fun e => _).outcome = _
  rw [Traced.outcome_bind, Traced.outcome_ofExcept]
  apply bind_congr
  intro e
  let known : Node := ⟨i, frame, e.popped, .nothing⟩
  change (d.resolveTarget ((graph.insert (.fresh i frame)).insert known) known >>= fun inferred =>
    _).outcome = _
  -- What was put into the graph on arrival is replaced by what is known now.
  have hover : (Node.fresh i frame).offset = known.offset := rfl
  rw [Traced.outcome_bind, Graph.insert_insert hover]
  apply bind_congr
  intro inferred
  have hover : (Node.fresh i frame).offset = { known with inferred := inferred }.offset := rfl
  change Except.ok ((graph.insert (.fresh i frame)).insert { known with inferred := inferred },
    _) = _
  rw [Graph.insert_insert hover]
  rfl

theorem visit_plain (hnone : graph.get? frame.ip = none)
    (h : d.image.Stands d.isa frame.key frame.ip.toNat i) (hi : i.Plain) :
    (d.visit graph frame).outcome = do
      let e ← frame.effect i none
      let known : Node := ⟨i, frame, e.popped, .nothing⟩
      return (graph.insert known, known.successors.reverse.map e.frame.moveTo) := by
  rw [visit_new hnone h hi.fixed]
  apply bind_congr
  intro e
  let known : Node := ⟨i, frame, e.popped, .nothing⟩
  have htarget : d.resolveTarget (graph.insert known) known = pure .nothing := by
    rw [resolveTarget, if_neg]
    exact Bool.not_eq_true _ ▸ hi.stays
  change (d.resolveTarget (graph.insert known) known).outcome >>= (fun inferred => _) = _
  rw [htarget]
  rfl

theorem visit_falls (hnone : graph.get? frame.ip = none)
    (h : d.image.Stands d.isa frame.key frame.ip.toNat i) (hi : i.Falls) :
    (d.visit graph frame).outcome = do
      let e ← frame.effect i none
      return (graph.insert ⟨i, frame, e.popped, .nothing⟩, [e.frame.moveTo i.next]) := by
  rw [visit_plain hnone h hi.toPlain]
  apply bind_congr
  intro e
  have hsuccessors : Node.successors ⟨i, frame, e.popped, .nothing⟩ = [i.next] :=
    Node.successors_of_flow hi.flow
  change Except.ok (_, List.map _ (Node.successors ⟨i, frame, e.popped, .nothing⟩).reverse) = _
  rw [hsuccessors]
  rfl

theorem run_falls (hnone : graph.get? frame.ip = none)
    (h : d.image.Stands d.isa frame.key frame.ip.toNat i) (hi : i.Falls) :
    (d.run graph [frame]).outcome = (do
      let e ← frame.effect i none
      (d.run (graph.insert ⟨i, frame, e.popped, .nothing⟩) [e.frame.moveTo i.next]).outcome) := by
  rw [run_cons, Traced.outcome_bind, visit_falls hnone h hi]
  cases frame.effect i none <;> rfl

theorem run_leaves (hnone : graph.get? frame.ip = none)
    (h : d.image.Stands d.isa frame.key frame.ip.toNat i) (hi : i.Plain)
    (hflow : i.opcode.flow = .leave) :
    (d.run graph [frame]).outcome = (do
      let e ← frame.effect i none
      return graph.insert ⟨i, frame, e.popped, .nothing⟩) := by
  rw [run_cons, Traced.outcome_bind, visit_plain hnone h hi]
  cases frame.effect i none with
  | error fault => rfl
  | ok e =>
    have hsuccessors : Node.successors ⟨i, frame, e.popped, .nothing⟩ = [] := by
      rw [Node.successors, hflow]
    let known : Node := ⟨i, frame, e.popped, .nothing⟩
    change (d.run (graph.insert known) (known.successors.reverse.map _ ++ [])).outcome = _
    rw [hsuccessors, List.reverse_nil, List.map_nil, List.append_nil, run_nil]
    rfl

/-- The frame is on its way through straight code. All that is recorded lies behind it. -/
structure Within (d : Discovery) (graph : Graph) (frame : Frame) (instructions : List Instruction)
    (last : Instruction) : Prop where
  lays : d.image.Lays d.isa frame.key frame.ip.toNat (instructions ++ [last])
  falls : ∀ i ∈ instructions, i.Falls
  passed : ∀ node ∈ graph.nodes, node.offset < frame.ip

namespace Within

theorem start (entry : Export)
    (hlays : d.image.Lays d.isa entry.key entry.offset.toNat (instructions ++ [last]))
    (hfalls : ∀ i ∈ instructions, i.Falls) :
    d.Within .empty (.start entry.offset entry.key) instructions last :=
  ⟨hlays, hfalls, fun _ hnode => (nomatch hnode)⟩

theorem get?_eq_none (h : d.Within graph frame instructions last) :
    graph.get? frame.ip = none :=
  Graph.get?_eq_none_of_lt h.passed

theorem stands_last (h : d.Within graph frame [] last) :
    d.image.Stands d.isa frame.key frame.ip.toNat last := by
  obtain _ | ⟨hstands, _⟩ := h.lays
  exact hstands

theorem passed_last (h : d.Within graph frame [] last) :
    ∀ node ∈ graph.nodes, node.offset < last.offset := by
  rw [UInt32.toNat_inj.1 h.stands_last.offset]
  exact h.passed

section

variable (h : d.Within graph frame (i :: instructions) last)
include h

theorem stands : d.image.Stands d.isa frame.key frame.ip.toNat i := by
  obtain _ | ⟨hstands, _⟩ := h.lays
  exact hstands

theorem passed_offset : ∀ node ∈ graph.nodes, node.offset < i.offset := by
  rw [UInt32.toNat_inj.1 h.stands.offset]
  exact h.passed

theorem offset_lt_next : i.offset < i.next :=
  (h.lays.behind (by simp)).2

theorem offset_lt_last : i.offset < last.offset :=
  UInt32.lt_of_lt_of_le h.offset_lt_next (h.lays.behind (by simp)).1.start_le

theorem visit (heffect : frame.effect i none = .ok e) :
    (d.visit graph frame).outcome =
      .ok (graph.insert ⟨i, frame, e.popped, .nothing⟩, [e.frame.moveTo i.next]) := by
  rw [visit_falls h.get?_eq_none h.stands (h.falls i List.mem_cons_self), heffect]
  rfl

theorem nodes_insert : (graph.insert ⟨i, frame, e.popped, .nothing⟩).nodes =
    graph.nodes ++ [⟨i, frame, e.popped, .nothing⟩] :=
  Graph.nodes_insert_last h.passed_offset

theorem moved (heffect : frame.effect i none = .ok e) :
    d.Within (graph.insert ⟨i, frame, e.popped, .nothing⟩) (e.frame.moveTo i.next) instructions
      last := by
  refine ⟨?_, fun j hj => h.falls j (List.mem_cons_of_mem _ hj), ?_⟩
  · rw [show (e.frame.moveTo i.next).key = _ from Frame.key_effect heffect]
    exact (h.lays.behind (by simp)).1
  · exact Graph.lt_of_mem_insert_last h.passed_offset h.offset_lt_next

end

end Within

/-- The search through straight code records what running its frame through it does. -/
theorem Within.nodes_run (h : d.Within graph frame instructions last) (hlast : last.Plain)
    (hleaves : last.opcode.flow = .leave) : (d.run graph [frame]).outcome.map Graph.nodes =
      (frame.along (instructions ++ [last])).map (graph.nodes ++ ·) := by
  induction instructions generalizing graph frame with
  | nil =>
    rw [run_leaves h.get?_eq_none h.stands_last hlast hleaves, List.nil_append, Frame.along]
    cases frame.effect last none with
    | error fault => rfl
    | ok e => exact congrArg Except.ok (Graph.nodes_insert_last h.passed_last)
  | cons i rest ih =>
    rw [run_falls h.get?_eq_none h.stands (h.falls i List.mem_cons_self), List.cons_append,
      Frame.along]
    cases heffect : frame.effect i none with
    | error fault => rfl
    | ok e =>
      let known : Node := ⟨i, frame, e.popped, .nothing⟩
      let moved := e.frame.moveTo i.next
      change (d.run (graph.insert known) [moved]).outcome.map Graph.nodes =
        (moved.along (rest ++ [last]) >>= fun nodes => pure (known :: nodes)).map (graph.nodes ++ ·)
      rw [ih (h.moved heffect), h.nodes_insert]
      cases moved.along (rest ++ [last]) with
      | error fault => rfl
      | ok nodes => exact congrArg Except.ok (List.append_assoc _ _ _)

theorem nodes_discover_straight {entry : Export}
    (hlays : d.image.Lays d.isa entry.key entry.offset.toNat (instructions ++ [last]))
    (hfalls : ∀ i ∈ instructions, i.Falls) (hlast : last.Plain)
    (hleaves : last.opcode.flow = .leave) :
    (d.discover [entry]).outcome.map Graph.nodes =
      (Frame.start entry.offset entry.key).along (instructions ++ [last]) := by
  let start := Frame.start entry.offset entry.key
  have hrun : (d.run .empty [start]).outcome.map Graph.nodes =
      (start.along (instructions ++ [last])).map (Graph.empty.nodes ++ ·) :=
    (Within.start entry hlays hfalls).nodes_run hlast hleaves
  rw [outcome_discover, outcome_enterAll_cons]
  calc _ = (d.run .empty [start]).outcome.map Graph.nodes := by
        cases (d.run .empty [start]).outcome <;> rfl
    _ = _ := hrun
    _ = _ := by cases start.along (instructions ++ [last]) <;> rfl

end Discovery

end StackLift
