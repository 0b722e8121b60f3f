import StackLift.Discovery
import StackLift.InstructionSet.Reference
import StackLift.Proofs.Covering
import StackLift.Proofs.Effect

namespace StackLift

def Node.signature? (node : Node) : Option Signature :=
  node.call?.map Call.signature

def Node.effectOn (node : Node) (f : Frame) : Except Fault Effect :=
  f.effect node.toInstruction node.signature?

def Graph.Covers (graph : Graph) (f : Frame) : Prop :=
  ∃ node, graph.get? f.ip = some node ∧ node.frame.Covers f

/-- The set has the opcode, and the operand is of the form that the opcode asks for. -/
structure InstructionSet.Admits (isa : InstructionSet) (i : Instruction) : Prop where
  opcode : i.opcode ∈ isa.opcodes
  operand : ∃ word, Operand.ofField? i.opcode.form word = some i.operand

def Graph.DrawnFrom (graph : Graph) (isa : InstructionSet) : Prop :=
  ∀ offset node, graph.get? offset = some node → isa.Admits node.toInstruction

theorem Graph.drawnFrom_empty (isa : InstructionSet) : Graph.empty.DrawnFrom isa :=
  fun _ _ h => (nomatch h)

/-- Variable-arity opcodes do not transfer control. -/
def InstructionSet.CallsReturn (isa : InstructionSet) : Prop :=
  ∀ opcode ∈ isa.opcodes, opcode.variableArity = true → opcode.transfersControl = false

theorem bind_eq_ok {α β : Type} {x : Except Fault α} {f : α → Except Fault β} {b : β} :
    x >>= f = .ok b ↔ ∃ a, x = .ok a ∧ f a = .ok b := by
  cases x with
  | error fault => exact ⟨fun h => (nomatch h), fun ⟨_, h, _⟩ => (nomatch h)⟩
  | ok a => exact ⟨fun h => ⟨a, rfl, h⟩, fun ⟨_, h, hb⟩ => by cases h; exact hb⟩

theorem ok_of_map_eq_ok {ε α β : Type} {x : Except ε α} {f : α → β} {b : β}
    (h : x.map f = .ok b) : ∃ a, x = .ok a ∧ f a = b := by
  cases x with
  | error fault => cases h
  | ok a =>
    cases h
    exact ⟨a, rfl, rfl⟩

theorem ok_of_toOption_eq_some {ε α : Type} {x : Except ε α} {a : α} (h : x.toOption = some a) :
    x = .ok a := by
  cases x with
  | error fault => cases h
  | ok b =>
    cases h
    rfl

theorem Image.decode_cases {image : Image} {isa : InstructionSet} {key : UInt32}
    {position : Nat} {decoded : Decoded} (h : (image.decode isa key position).1 = .ok decoded) :
    decoded.opcode ∈ isa.opcodes ∧
      ∃ word, Operand.ofField? decoded.opcode.form word = some decoded.operand := by
  rw [decode] at h
  split at h
  · cases h
  · split at h
    · cases h
    · next opcode hopcode =>
      obtain ⟨bytes, _, h⟩ := bind_eq_ok.1 h
      obtain ⟨operand, hoperand, h⟩ := bind_eq_ok.1 h
      cases h
      refine ⟨List.mem_of_find?_eq_some hopcode, wordOfBytes bytes, ?_⟩
      simp only [operandOfBytes] at hoperand
      split at hoperand
      · next hfield =>
        cases hoperand
        exact hfield
      · cases hoperand

theorem InstructionSet.reference_callsReturn : reference.CallsReturn := by
  intro opcode h
  revert opcode
  decide

namespace Discovery

variable {d : Discovery} {graph next : Graph} {frame : Frame} {frames : List Frame}

/-- The node from which the discovery goes on when a frame arrives that the graph does not cover. -/
inductive Arrives (d : Discovery) (graph : Graph) (frame : Frame) : Node → Prop
  | found {node} : graph.get? frame.ip = none → d.decode frame = .ok node →
      Arrives d graph frame node
  | grown {node merged} : graph.get? frame.ip = some node →
      node.frame.merge frame = .ok (merged, true) →
      Arrives d graph frame { node with frame := merged }

/-- What following `node` makes of it: its instruction and frame stay, `e` is its effect, and what
that pops is among its inputs. -/
structure Follows (node known : Node) (e : Effect) : Prop where
  instruction : known.toInstruction = node.toInstruction
  frame : known.frame = node.frame
  effect : known.effectOn known.frame = .ok e
  inputs : recordInputs node.offset node.inputs e.popped = .ok known.inputs

theorem resolveCall?_cases {node : Node} {call : Option Call}
    (h : (d.resolveCall? graph node).outcome = .ok call) :
    (node.opcode.variableArity = false ∧ call = none) ∨
      (node.opcode.variableArity = true ∧ ∃ service, call = some service) := by
  rw [resolveCall?] at h
  split at h
  · next hv =>
    split at h
    · obtain ⟨selector, _, h⟩ := Traced.outcome_bind_eq_ok.1 h
      obtain ⟨service, _, h⟩ := Traced.outcome_bind_eq_ok.1 h
      cases h
      exact .inr ⟨hv, service, rfl⟩
    · cases h
  · next hv =>
    cases h
    exact .inl ⟨Bool.eq_false_iff.2 hv, rfl⟩

theorem resolveTarget_of_not_transfersControl {node : Node} {inferred : Inferred}
    (h : (d.resolveTarget graph node).outcome = .ok inferred)
    (ht : node.opcode.transfersControl = false) : inferred = node.inferred := by
  rw [resolveTarget, if_neg (by simp [ht])] at h
  cases h
  rfl

theorem follow_cases {node : Node}
    (hsep : node.opcode.variableArity = true → node.opcode.transfersControl = false)
    (h : (d.follow graph node).outcome = .ok (next, frames)) :
    ∃ known e, Follows node known e ∧ next = graph.insert known ∧
      frames = known.successors.reverse.map e.frame.moveTo := by
  obtain ⟨call, hcall, h⟩ := Traced.outcome_bind_eq_ok.1 h
  obtain ⟨e, heffect, h⟩ := Traced.outcome_bind_eq_ok.1 h
  obtain ⟨inputs, hinputs, h⟩ := Traced.outcome_bind_eq_ok.1 h
  obtain ⟨inferred, hinferred, h⟩ := Traced.outcome_bind_eq_ok.1 h
  cases h
  refine ⟨{ node with inputs := inputs, inferred := inferred }, e,
    ⟨rfl, rfl, ?_, hinputs⟩, rfl, rfl⟩
  rcases resolveCall?_cases hcall with ⟨hv, rfl⟩ | ⟨hv, service, rfl⟩
  · exact (Frame.effect_fixed hv _ _ _).trans heffect
  · rw [resolveTarget_of_not_transfersControl hinferred (hsep hv)]
    exact heffect

theorem decode_cases {node : Node} (h : d.decode frame = .ok node) :
    node.offset = frame.ip ∧ node.frame = frame ∧ node.inputs = [] ∧
      d.isa.Admits node.toInstruction := by
  obtain ⟨decoded, hd, h⟩ := bind_eq_ok.1 h
  cases h
  obtain ⟨hopcode, hoperand⟩ := Image.decode_cases hd
  exact ⟨rfl, rfl, rfl, hopcode, hoperand⟩

theorem Arrives.offset_eq {node : Node} (h : d.Arrives graph frame node) :
    node.offset = frame.ip := by
  cases h with
  | found _ hdecode => exact (decode_cases hdecode).1
  | grown hget _ => exact (Graph.offset_of_get? hget :)

theorem Arrives.get?_insert {node known : Node} (h : d.Arrives graph frame node)
    (hknown : known.toInstruction = node.toInstruction) (offset : UInt32) :
    ((graph.insert node).insert known).get? offset =
      if offset = frame.ip then some known else graph.get? offset := by
  rw [Graph.get?_insert, Graph.get?_insert, hknown, h.offset_eq]
  split <;> rfl

theorem Arrives.covers_frame {node : Node} (h : d.Arrives graph frame node) :
    node.frame.Covers frame := by
  cases h with
  | found _ hdecode =>
    rw [(decode_cases hdecode).2.1]
    exact .refl frame
  | grown _ hmerge => exact (Frame.merge_covers hmerge).2

theorem Arrives.covers {node old : Node} (h : d.Arrives graph frame node)
    (hold : graph.get? frame.ip = some old) : node.frame.Covers old.frame := by
  cases h with
  | found hnone _ =>
    rw [hold] at hnone
    cases hnone
  | grown hget hmerge =>
    rw [hold] at hget
    cases hget
    exact (Frame.merge_covers hmerge).1

theorem Arrives.admits {node : Node} (h : d.Arrives graph frame node)
    (hgraph : graph.DrawnFrom d.isa) : d.isa.Admits node.toInstruction := by
  cases h with
  | found _ hdecode => exact (decode_cases hdecode).2.2.2
  | grown hget _ => exact (hgraph _ _ hget :)

theorem visit_arrives (h : (d.visit graph frame).outcome = .ok (next, frames)) :
    (graph.Covers frame ∧ next = graph ∧ frames = []) ∨ ∃ node, d.Arrives graph frame node ∧
      (d.follow (graph.insert node) node).outcome = .ok (next, frames) := by
  rw [visit] at h
  split at h
  · next node hget =>
    obtain ⟨⟨merged, grew⟩, hmerge, h⟩ := Traced.outcome_bind_eq_ok.1 h
    cases grew with
    | false =>
      cases h
      exact .inl ⟨⟨node, hget, Frame.covers_of_merge hmerge⟩, rfl, rfl⟩
    | true =>
      obtain ⟨_, _, h⟩ := Traced.outcome_bind_eq_ok.1 h
      exact .inr ⟨_, .grown hget hmerge, h⟩
  · next hget =>
    obtain ⟨node, hdecode, h⟩ := Traced.outcome_bind_eq_ok.1 h
    obtain ⟨_, _, h⟩ := Traced.outcome_bind_eq_ok.1 h
    exact .inr ⟨node, .found hget hdecode, h⟩

/-- A visit drops a frame that the graph covers, or takes it in and hands on the frames of the
successors. -/
theorem visit_cases (hisa : d.isa.CallsReturn) (hgraph : graph.DrawnFrom d.isa)
    (h : (d.visit graph frame).outcome = .ok (next, frames)) :
    (graph.Covers frame ∧ next = graph ∧ frames = []) ∨
      ∃ node known e, d.Arrives graph frame node ∧ Follows node known e ∧
        (∀ offset, next.get? offset = if offset = frame.ip then some known
          else graph.get? offset) ∧
        frames = known.successors.reverse.map e.frame.moveTo := by
  rcases visit_arrives h with hdropped | ⟨node, harrives, hfollow⟩
  · exact .inl hdropped
  · obtain ⟨known, e, hknown, rfl, rfl⟩ :=
      follow_cases (hisa _ (harrives.admits hgraph).opcode) hfollow
    exact .inr ⟨node, known, e, harrives, hknown, harrives.get?_insert hknown.instruction, rfl⟩

section

variable (hisa : d.isa.CallsReturn) (hgraph : graph.DrawnFrom d.isa)
  (h : (d.visit graph frame).outcome = .ok (next, frames))
include hisa hgraph h

theorem visit_drawnFrom : next.DrawnFrom d.isa := by
  rcases visit_cases hisa hgraph h with ⟨_, rfl, _⟩ | ⟨node, known, e, harrives, hknown, hget, _⟩
  · exact hgraph
  · intro offset other hother
    rw [hget] at hother
    split at hother
    · cases hother
      rw [hknown.instruction]
      exact harrives.admits hgraph
    · exact hgraph _ _ hother

theorem visit_covers : next.Covers frame := by
  rcases visit_cases hisa hgraph h with
    ⟨hcovers, rfl, _⟩ | ⟨node, known, e, harrives, hknown, hget, _⟩
  · exact hcovers
  · refine ⟨known, by rw [hget, if_pos rfl], ?_⟩
    rw [hknown.frame]
    exact harrives.covers_frame

theorem visit_keeps_covers {f : Frame} (hf : graph.Covers f) : next.Covers f := by
  rcases visit_cases hisa hgraph h with ⟨_, rfl, _⟩ | ⟨node, known, e, harrives, hknown, hget, _⟩
  · exact hf
  · obtain ⟨old, hold, hcovers⟩ := hf
    by_cases hip : f.ip = frame.ip
    · refine ⟨known, by rw [hget, if_pos hip], ?_⟩
      rw [hknown.frame]
      exact (harrives.covers (hip ▸ hold)).trans hcovers
    · exact ⟨old, by rw [hget, if_neg hip, hold], hcovers⟩

end

section

variable {P : Graph → List Frame → Prop} {exports : List Export} {final : Graph}

theorem enterAll_preserves
    (henter : ∀ {graph entry}, entry ∈ exports → P graph [] →
      P graph [.start entry.offset entry.key])
    (hvisit : ∀ {graph next frame frames rest}, P graph (frame :: rest) →
      (d.visit graph frame).outcome = .ok (next, frames) → P next (frames ++ rest))
    (hgraph : P graph []) (h : (d.enterAll graph exports).outcome = .ok final) : P final [] := by
  induction exports generalizing graph with
  | nil =>
    cases h
    exact hgraph
  | cons entry rest ih =>
    obtain ⟨middle, hentry, h⟩ := Traced.outcome_bind_eq_ok.1 h
    obtain ⟨_, _, hrun⟩ := Traced.outcome_bind_eq_ok.1 hentry
    rw [Traced.outcome_reportFailure] at hrun
    have hmiddle := run_preserves hvisit (henter List.mem_cons_self hgraph) hrun
    exact ih (fun hmem => henter (List.mem_cons_of_mem _ hmem)) hmiddle h

/-- What holds at the start, when an export is entered and after every visit holds in the end. -/
theorem discover_preserves (hempty : P .empty [])
    (henter : ∀ {graph entry}, entry ∈ exports → P graph [] →
      P graph [.start entry.offset entry.key])
    (hvisit : ∀ {graph next frame frames rest}, P graph (frame :: rest) →
      (d.visit graph frame).outcome = .ok (next, frames) → P next (frames ++ rest))
    (h : (d.discover exports).outcome = .ok final) : P final [] := by
  obtain ⟨graph, hall, h⟩ := Traced.outcome_bind_eq_ok.1 h
  cases h
  exact enterAll_preserves henter hvisit hempty hall

end

end Discovery

end StackLift
