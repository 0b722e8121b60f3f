import StackLift.Proofs.Termination
import StackLift.Proofs.Visits

namespace StackLift

def Node.consuming (node : Node) (inputs : List Provenance) (call : Option Call) : Node :=
  { node with
    inputs := inputs
    inferred := match call with
      | some call => .call call
      | none => node.inferred }

namespace Discovery

variable {d : Discovery} {exports : List Export} {graph next : Graph} {frame : Frame}
  {frames : List Frame} {node known : Node} {call : Option Call} {e : Effect}

/-- An export is entered when no frame waits; otherwise the first frame is visited. -/
inductive Passes (d : Discovery) (exports : List Export) : Search → Prop
  | start : Passes d exports ⟨.empty, []⟩
  | enter {graph entry} : Passes d exports ⟨graph, []⟩ → entry ∈ exports →
      Passes d exports ⟨graph, [.start entry.offset entry.key]⟩
  | visit {graph next frame frames rest} : Passes d exports ⟨graph, frame :: rest⟩ →
      (d.visit graph frame).outcome = .ok (next, frames) →
      Passes d exports ⟨next, frames ++ rest⟩

theorem passes_of_discover (h : (d.discover exports).outcome = .ok graph) :
    d.Passes exports ⟨graph, []⟩ :=
  discover_preserves (P := fun graph agenda => d.Passes exports ⟨graph, agenda⟩) .start
    (fun hentry hp => hp.enter hentry) (fun hp hvisit => hp.visit hvisit) h

/-- The steps by which `node` is followed and `known` is made of it. -/
structure Followed (d : Discovery) (graph : Graph) (node known : Node) (call : Option Call)
    (e : Effect) : Prop where
  resolved : (d.resolveCall? graph node).outcome = .ok call
  effect : node.frame.effect node.toInstruction (call.map Call.signature) = .ok e
  inputs : recordInputs node.offset node.inputs e.popped = .ok known.inputs
  inferred : (d.resolveTarget (graph.insert (node.consuming known.inputs call))
    (node.consuming known.inputs call)).outcome = .ok known.inferred
  eq : known = { node with inputs := known.inputs, inferred := known.inferred }

theorem Followed.toInstruction_eq (h : d.Followed graph node known call e) :
    known.toInstruction = node.toInstruction := by
  rw [h.eq]

theorem Followed.frame_eq (h : d.Followed graph node known call e) : known.frame = node.frame := by
  rw [h.eq]

theorem followed_of_follow (h : (d.follow graph node).outcome = .ok (next, frames)) :
    ∃ known call e, d.Followed graph node known call e ∧ next = graph.insert known ∧
      frames = known.successors.reverse.map e.frame.moveTo := by
  obtain ⟨call, hcall, h⟩ := Traced.outcome_bind_eq_ok.1 h
  obtain ⟨e, heffect, h⟩ := Traced.outcome_bind_eq_ok.1 h
  obtain ⟨inputs, hinputs, h⟩ := Traced.outcome_bind_eq_ok.1 h
  obtain ⟨inferred, hinferred, h⟩ := Traced.outcome_bind_eq_ok.1 h
  cases h
  exact ⟨{ node with inputs := inputs, inferred := inferred }, call, e,
    ⟨hcall, heffect, hinputs, hinferred, rfl⟩, rfl, rfl⟩

/-- A visit drops a frame that the graph covers, or takes it in and follows the instruction
there. -/
theorem visit_followed (h : (d.visit graph frame).outcome = .ok (next, frames)) :
    (graph.Covers frame ∧ next = graph ∧ frames = []) ∨
      ∃ node known call e, d.Arrives graph frame node ∧
        d.Followed (graph.insert node) node known call e ∧
        (∀ offset, next.get? offset = if offset = frame.ip then some known
          else graph.get? offset) ∧
        frames = known.successors.reverse.map e.frame.moveTo := by
  rcases visit_arrives h with hdropped | ⟨node, harrives, hfollow⟩
  · exact .inl hdropped
  · obtain ⟨known, call, e, hknown, rfl, rfl⟩ := followed_of_follow hfollow
    exact .inr ⟨node, known, call, e, harrives, hknown,
      harrives.get?_insert hknown.toInstruction_eq, rfl⟩

theorem Arrives.get?_next (h : d.Arrives graph frame node) (hget : ∀ offset,
    next.get? offset = if offset = frame.ip then some known else graph.get? offset) :
    next.get? node.offset = some known ∧
      ∀ offset, offset ≠ node.offset → next.get? offset = (graph.insert node).get? offset := by
  rw [h.offset_eq]
  constructor
  · rw [hget, if_pos rfl]
  · intro offset hoffset
    rw [hget, if_neg hoffset, Graph.get?_insert, h.offset_eq, if_neg hoffset]

end Discovery

end StackLift
