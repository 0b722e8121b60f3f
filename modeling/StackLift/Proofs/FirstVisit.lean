import StackLift.Proofs.Grounded
import StackLift.Proofs.Stages
import StackLift.Proofs.StraightLine

namespace StackLift.Discovery

variable {d : Discovery} {exports rest : List Export} {entry : Export} {graph next : Graph}
  {frame : Frame} {frames waiting : List Frame} {node : Node} {instructions : List Instruction}
  {last : Instruction} {nodes : List Node} {s : Search}

/-- The discovery arrives at the instruction for the first time. The graph is the one that it has
when the instruction has consumed its operands, and no target is resolved yet. -/
inductive FirstVisit (d : Discovery) (exports : List Export) : Graph → Node → Prop
  | arrive {rest : List Export} {graph : Graph} {frame : Frame} {waiting : List Frame} {node : Node}
      {e : Effect} : d.Stage exports rest ⟨graph, frame :: waiting⟩ →
      graph.get? frame.ip = none → d.decode frame = .ok node →
      frame.effect node.toInstruction none = .ok e →
      FirstVisit d exports (graph.insert { node with inputs := e.popped })
        { node with inputs := e.popped }

theorem FirstVisit.outcome_visit (h : d.FirstVisit exports graph node)
    (hfixed : node.opcode.variableArity = false) :
    ∃ (rest : List Export) (found : Graph) (frame : Frame) (waiting : List Frame) (e : Effect),
      d.Stage exports rest ⟨found, frame :: waiting⟩ ∧ graph = found.insert node ∧
      (d.visit found frame).outcome = do
        let inferred ← (d.resolveTarget graph node).outcome
        let known := { node with inferred := inferred }
        return (found.insert known, known.successors.reverse.map e.frame.moveTo) := by
  cases h with
  | @arrive rest found frame waiting node e hstage hnone hdecode heffect =>
    obtain ⟨hstands, hfresh⟩ := stands_of_decode hdecode
    refine ⟨rest, found, frame, waiting, e, hstage, rfl, ?_⟩
    rw [visit_new hnone hstands hfixed, heffect, hfresh]
    rfl

theorem FirstVisit.exists_input (h : d.FirstVisit exports graph node)
    (hpops : node.opcode.pops = .one) : ∃ input, node.inputs = [input] := by
  cases h with
  | arrive _ _ _ heffect =>
    have hcount := Frame.count?_popped heffect
    rw [show Opcode.pops _ = _ from hpops] at hcount
    exact List.length_eq_one_iff.1 (Option.some.inj hcount).symm

section

variable (h : d.FirstVisit exports graph node) (hfixed : node.opcode.variableArity = false)
  (htransfers : node.opcode.transfersControl = true)
include h htransfers

theorem FirstVisit.outcome_resolveTarget : (d.resolveTarget graph node).outcome =
    (d.target graph node).map fun target => .targets (.singleton target) := by
  have hinferred : node.inferred = .nothing := by
    cases h with
    | arrive _ _ hdecode _ => exact (inferred_of_decode hdecode :)
  rw [resolveTarget, if_pos htransfers, Traced.outcome_bind, Traced.outcome_ofExcept, hinferred]
  cases d.target graph node <;> rfl

include hfixed

theorem FirstVisit.visit_of_target {target : UInt32} (htarget : d.target graph node = .ok target) :
    let known := { node with inferred := .targets (.singleton target) }
    ∃ rest found frame waiting behind, d.Stage exports rest ⟨found, frame :: waiting⟩ ∧
      graph = found.insert node ∧ (d.visit found frame).outcome =
        .ok (found.insert known, known.successors.reverse.map (Frame.moveTo behind)) := by
  obtain ⟨rest, found, frame, waiting, e, hstage, hgraph, hvisit⟩ := h.outcome_visit hfixed
  rw [h.outcome_resolveTarget htransfers, htarget] at hvisit
  exact ⟨rest, found, frame, waiting, e.frame, hstage, hgraph, hvisit⟩

theorem FirstVisit.discover_of_target {fault : Fault}
    (htarget : d.target graph node = .error fault) :
    (d.discover exports).outcome = .error fault := by
  obtain ⟨rest, found, frame, waiting, e, hstage, _, hvisit⟩ := h.outcome_visit hfixed
  rw [h.outcome_resolveTarget htransfers, htarget] at hvisit
  rw [← hstage.outcome_eq, run_cons, Traced.outcome_bind, hvisit]
  rfl

end

/-- Where the discovery of straight code stands: in front of the code, within it, or behind it. -/
inductive Along (d : Discovery) (entry : Export) (instructions : List Instruction)
    (last : Instruction) : List Export → Search → Prop
  | before : Along d entry instructions last [entry] ⟨.empty, []⟩
  | within {graph : Graph} {frame : Frame} {later : List Instruction} :
      d.Within graph frame later last →
      (Frame.start entry.offset entry.key).along (instructions ++ [last]) =
        (frame.along (later ++ [last])).map (graph.nodes ++ ·) →
      Along d entry instructions last [] ⟨graph, [frame]⟩
  | behind {rest : List Export} {graph : Graph} {agenda : List Frame} :
      graph.contains last.offset = true → Along d entry instructions last rest ⟨graph, agenda⟩

theorem Along.visit (h : d.Along entry instructions last rest ⟨graph, frame :: waiting⟩)
    (hvisit : (d.visit graph frame).outcome = .ok (next, frames)) :
    d.Along entry instructions last rest ⟨next, frames ++ waiting⟩ := by
  obtain ⟨hself, hmono⟩ := visit_contains hvisit
  cases h with
  | behind hlast => exact .behind (hmono _ hlast)
  | @within _ _ later hwithin halong =>
    cases later with
    | nil =>
      rw [← UInt32.toNat_inj.1 hwithin.stands_last.offset] at hself
      exact .behind hself
    | cons i later =>
      rw [visit_falls hwithin.get?_eq_none hwithin.stands (hwithin.falls i List.mem_cons_self)]
        at hvisit
      obtain ⟨e, heffect, hvisit⟩ := bind_eq_ok.1 hvisit
      cases hvisit
      apply Along.within (hwithin.moved heffect)
      rw [halong, List.cons_append, Frame.along_cons heffect, hwithin.nodes_insert]
      cases (e.frame.moveTo i.next).along (later ++ [last]) with
      | error fault => rfl
      | ok nodes => exact congrArg Except.ok (List.append_cons _ _ _)

theorem Stage.exists_firstVisit (h : d.Stage exports rest ⟨graph, [frame]⟩)
    (hwithin : d.Within graph frame instructions last)
    (halong : frame.along (instructions ++ [last]) = .ok nodes) :
    ∃ node, d.FirstVisit exports (nodes.foldl Graph.insert graph) node ∧
      node.toInstruction = last ∧ nodes.getLast? = some node := by
  induction instructions generalizing graph frame nodes with
  | nil =>
    obtain ⟨e, others, heffect, hothers, rfl⟩ := Frame.along_cons_eq_ok halong
    cases hothers
    have hdecode := decode_of_stands hwithin.stands_last
    exact ⟨_, .arrive h hwithin.get?_eq_none hdecode heffect, rfl, rfl⟩
  | cons i rest ih =>
    obtain ⟨e, others, heffect, hothers, rfl⟩ := Frame.along_cons_eq_ok halong
    obtain ⟨node, hfirst, hlast, hnode⟩ :=
      ih (h.visit (hwithin.visit heffect)) (hwithin.moved heffect) hothers
    refine ⟨node, hfirst, hlast, ?_⟩
    rw [List.getLast?_cons, hnode]
    rfl

section

variable (hlays : d.image.Lays d.isa entry.key entry.offset.toNat (instructions ++ [last]))
  (hfalls : ∀ i ∈ instructions, i.Falls)
include hlays hfalls

theorem Stage.along (h : d.Stage [entry] rest s) : d.Along entry instructions last rest s := by
  induction h with
  | start => exact .before
  | enter _ ih =>
    cases ih with
    | before =>
      apply Along.within (.start entry hlays hfalls)
      cases (Frame.start entry.offset entry.key).along (instructions ++ [last]) <;> rfl
    | behind hlast => exact .behind hlast
  | visit _ hvisit ih => exact ih.visit hvisit

/-- On the first visit of the last instruction, the graph is what running a frame through the code
records. -/
theorem FirstVisit.along (h : d.FirstVisit [entry] graph node) (hnode : node.offset = last.offset) :
    (Frame.start entry.offset entry.key).along (instructions ++ [last]) = .ok graph.nodes ∧
      graph.nodes.getLast? = some node := by
  cases h with
  | @arrive rest found frame waiting fresh e hstage hnone hdecode heffect =>
    obtain ⟨hstands, hfresh⟩ := stands_of_decode hdecode
    have hip : frame.ip = last.offset := (UInt32.toNat_inj.1 hstands.offset).symm.trans hnode
    cases hstage.along hlays hfalls with
    | behind hlast =>
      obtain ⟨old, hold⟩ := Graph.contains_iff.1 hlast
      rw [hip, hold] at hnone
      cases hnone
    | @within _ _ later hwithin halong =>
      cases later with
      | cons i later =>
        have hlt := hwithin.offset_lt_last
        rw [UInt32.toNat_inj.1 hwithin.stands.offset, hip] at hlt
        exact absurd hlt (UInt32.lt_irrefl _)
      | nil =>
        rw [decode_of_stands hwithin.stands_last] at hdecode
        cases hdecode
        change frame.effect last none = .ok e at heffect
        let known : Node := ⟨last, frame, e.popped, .nothing⟩
        have hnodes : (found.insert known).nodes = found.nodes ++ [known] :=
          Graph.nodes_insert_last hwithin.passed_last
        change _ = Except.ok (found.insert known).nodes ∧
          (found.insert known).nodes.getLast? = some known
        rw [halong, hnodes, List.nil_append, Frame.along_cons heffect]
        exact ⟨rfl, List.getLast?_concat⟩

theorem FirstVisit.toInstruction_eq (h : d.FirstVisit [entry] graph node)
    (hnode : node.offset = last.offset) : node.toInstruction = last := by
  obtain ⟨halong, hlast⟩ := h.along hlays hfalls hnode
  have hlisted := congrArg List.getLast? (Frame.map_toInstruction_along halong)
  rw [List.getLast?_map, hlast, List.getLast?_concat] at hlisted
  exact Option.some.inj hlisted

end

/-- Where the frame gets through the code, its last instruction has a first visit. -/
theorem exists_firstVisit (entry : Export)
    (hlays : d.image.Lays d.isa entry.key entry.offset.toNat (instructions ++ [last]))
    (hfalls : ∀ i ∈ instructions, i.Falls)
    (halong : (Frame.start entry.offset entry.key).along (instructions ++ [last]) = .ok nodes) :
    ∃ node, d.FirstVisit [entry] (nodes.foldl Graph.insert .empty) node ∧
      node.toInstruction = last ∧ nodes.getLast? = some node := by
  have hstage : d.Stage [entry] [] ⟨.empty, [.start entry.offset entry.key]⟩ := Stage.start.enter
  exact hstage.exists_firstVisit (.start entry hlays hfalls) halong

end StackLift.Discovery
