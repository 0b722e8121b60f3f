import StackLift.Proofs.Passes
import StackLift.Proofs.Settled

namespace StackLift

structure Node.Extends (later earlier : Node) : Prop where
  instruction : later.toInstruction = earlier.toInstruction
  frame : later.frame.Covers earlier.frame
  inputs : List.Forall₂ Provenance.Covers later.inputs earlier.inputs
  targets : earlier.opcode.variableArity = false → ∀ t ∈ earlier.targets, t ∈ later.targets

def Graph.Extends (later earlier : Graph) : Prop :=
  ∀ offset old, earlier.get? offset = some old →
    ∃ node, later.get? offset = some node ∧ node.Extends old

theorem Node.Extends.refl (node : Node) : node.Extends node :=
  ⟨rfl, .refl _, List.forall₂_same.2 fun v _ => .refl v, fun _ _ ht => ht⟩

theorem Node.Extends.trans {a b c : Node} (hab : a.Extends b) (hbc : b.Extends c) :
    a.Extends c := by
  refine ⟨hab.instruction.trans hbc.instruction, hab.frame.trans hbc.frame,
    forall₂_comp hab.inputs hbc.inputs fun _ _ _ => Provenance.Covers.trans, ?_⟩
  intro harity t ht
  have hb : b.opcode.variableArity = false := by rw [hbc.instruction, harity]
  exact hab.targets hb t (hbc.targets harity t ht)

theorem Node.Extends.mem_successors {later earlier : Node} (h : later.Extends earlier)
    (hsep : earlier.opcode.variableArity = true → earlier.opcode.transfersControl = false)
    {t : UInt32} (ht : t ∈ earlier.successors) : t ∈ later.successors := by
  have hnext : later.next = earlier.next := congrArg Instruction.next h.instruction
  have hflow : later.opcode.flow = earlier.opcode.flow := by rw [h.instruction]
  have htargets : earlier.opcode.transfersControl = true →
      ∀ t ∈ earlier.targets, t ∈ later.targets := by
    intro htransfers
    apply h.targets
    rw [Bool.eq_false_iff]
    intro harity
    rw [hsep harity] at htransfers
    cases htransfers
  rw [Opcode.transfersControl] at htargets
  rw [Node.successors] at ht ⊢
  rw [hflow, hnext]
  cases hcase : earlier.opcode.flow with
  | next => simpa only [hcase] using ht
  | leave => simpa only [hcase] using ht
  | jump =>
    rw [hcase] at ht htargets
    exact htargets rfl t ht
  | call | conditionalJump =>
    rw [hcase] at ht htargets
    rcases List.mem_append.1 ht with ht | ht
    · exact List.mem_append_left _ (htargets rfl t ht)
    · exact List.mem_append_right _ ht

namespace Graph

variable {g h k : Graph}

theorem Extends.refl (graph : Graph) : graph.Extends graph :=
  fun _ node hnode => ⟨node, hnode, .refl node⟩

theorem Extends.trans (hgh : g.Extends h) (hhk : h.Extends k) : g.Extends k := by
  intro offset old hold
  obtain ⟨middle, hmiddle, hmo⟩ := hhk offset old hold
  obtain ⟨node, hnode, hnm⟩ := hgh offset middle hmiddle
  exact ⟨node, hnode, hnm.trans hmo⟩

theorem Extends.mem_successors {isa : InstructionSet} (hisa : isa.CallsReturn)
    (hext : g.Extends h) (hdrawn : h.DrawnFrom isa) {offset t : UInt32}
    (ht : t ∈ h.successors offset) : t ∈ g.successors offset := by
  obtain ⟨old, hold, ht⟩ := mem_successors_iff.1 ht
  obtain ⟨node, hnode, hgrown⟩ := hext offset old hold
  have hsep := hisa _ (hdrawn offset old hold).opcode
  exact mem_successors_iff.2 ⟨node, hnode, hgrown.mem_successors hsep ht⟩

theorem Path.mono {start : UInt32} {path : List UInt32} (hpath : h.Path start path)
    (hsuccessors : ∀ offset t, t ∈ h.successors offset → t ∈ g.successors offset) :
    g.Path start path := by
  induction hpath with
  | start => exact .start
  | step _ ht ih => exact ih.step (hsuccessors _ _ ht)

/-- Only instructions that pop nothing are without recorded inputs. -/
def Recorded (graph : Graph) : Prop :=
  ∀ offset node, graph.get? offset = some node → node.inputs = [] → node.opcode.pops = .none

end Graph

theorem Pops.count?_eq_zero_iff {s : Option Signature} :
    ∀ {pops : Pops} {count : Nat}, pops.count? s = some count → (count = 0 ↔ pops = .none)
  | .none, _, h => by cases h; simp
  | .one, _, h => by cases h; simp
  | .two, _, h => by cases h; simp
  | .variable, _, h => by
    cases s with
    | none => cases h
    | some signature => cases h; simp

theorem Frame.popped_eq_nil_iff {f : Frame} {i : Instruction} {s : Option Signature} {e : Effect}
    (h : f.effect i s = .ok e) : e.popped = [] ↔ i.opcode.pops = .none := by
  rw [← List.length_eq_zero_iff]
  exact Pops.count?_eq_zero_iff (count?_popped h)

theorem recordInputs_eq_nil {offset : UInt32} {recorded popped : List Provenance}
    (h : recordInputs offset recorded popped = .ok []) : popped = [] := by
  have hlength := (recordInputs_covers h).length_eq
  exact List.length_eq_zero_iff.1 hlength.symm

theorem recordInputs_covers_recorded {offset : UInt32} {recorded popped inputs : List Provenance}
    (h : recordInputs offset recorded popped = .ok inputs) (hnil : recorded = [] → popped = []) :
    List.Forall₂ Provenance.Covers inputs recorded := by
  rw [recordInputs] at h
  split at h
  · next hrecorded =>
    cases h
    rw [hnil hrecorded, hrecorded]
    exact .nil
  · split at h
    · next hlength =>
      cases h
      exact (Frame.mergeStack_covers hlength).1
    · cases h

namespace Discovery

variable {d : Discovery} {exports : List Export} {graph next : Graph} {frame : Frame}
  {frames : List Frame} {node known : Node} {call : Option Call} {e : Effect}

theorem inferred_of_decode (h : d.decode frame = .ok node) : node.inferred = .nothing := by
  obtain ⟨decoded, _, h⟩ := bind_eq_ok.1 h
  cases h
  rfl

theorem gainTarget_cases {offset target : UInt32} {known inferred : Inferred} {node : Node}
    (h : (gainTarget offset target known).outcome = .ok inferred) :
    target ∈ ({ node with inferred := inferred } : Node).targets ∧
      ∀ t ∈ ({ node with inferred := known } : Node).targets,
        t ∈ ({ node with inferred := inferred } : Node).targets := by
  cases known with
  | nothing =>
    cases h
    exact ⟨List.mem_singleton.2 rfl, fun _ ht => (nomatch ht)⟩
  | call call =>
    cases h
    exact ⟨List.mem_singleton.2 rfl, fun _ ht => (nomatch ht)⟩
  | targets targets =>
    rw [gainTarget] at h
    split at h
    · next hmem =>
      cases h
      exact ⟨hmem, fun _ ht => ht⟩
    · cases h
      exact ⟨OffsetSet.mem_insert.2 (.inl rfl), fun _ ht => OffsetSet.mem_insert.2 (.inr ht)⟩

theorem resolveTarget_cases {inferred : Inferred}
    (h : (d.resolveTarget graph node).outcome = .ok inferred)
    (ht : node.opcode.transfersControl = true) :
    ∃ target, d.target graph node = .ok target ∧
      target ∈ ({ node with inferred := inferred } : Node).targets ∧
      ∀ t ∈ node.targets, t ∈ ({ node with inferred := inferred } : Node).targets := by
  rw [resolveTarget, if_pos ht] at h
  obtain ⟨target, htarget, h⟩ := Traced.outcome_bind_eq_ok.1 h
  exact ⟨target, htarget, gainTarget_cases h⟩

theorem Followed.call_eq_none (h : d.Followed graph node known call e)
    (harity : node.opcode.variableArity = false) : call = none := by
  rcases resolveCall?_cases h.resolved with ⟨_, hcall⟩ | ⟨hvariable, _⟩
  · exact hcall
  · rw [harity] at hvariable
    cases hvariable

theorem Followed.targets (h : d.Followed graph node known call e)
    (harity : node.opcode.variableArity = false) : ∀ t ∈ node.targets, t ∈ known.targets := by
  have hinferred := h.inferred
  rw [h.call_eq_none harity] at hinferred
  intro t ht
  rw [h.eq]
  cases htransfers : node.opcode.transfersControl with
  | true =>
    obtain ⟨_, _, _, hkept⟩ := resolveTarget_cases hinferred htransfers
    exact hkept t ht
  | false =>
    rw [resolveTarget_of_not_transfersControl hinferred htransfers]
    exact ht

theorem Followed.extends (h : d.Followed graph node known call e)
    (hnil : node.inputs = [] → node.opcode.pops = .none) : known.Extends node := by
  refine ⟨h.toInstruction_eq, ?_, ?_, h.targets⟩
  · rw [h.frame_eq]
    exact .refl _
  · apply recordInputs_covers_recorded h.inputs
    intro hinputs
    exact (Frame.popped_eq_nil_iff h.effect).2 (hnil hinputs)

theorem Arrives.extends {old : Node} (h : d.Arrives graph frame node)
    (hold : graph.get? frame.ip = some old) : node.Extends old := by
  have hcovers := h.covers hold
  cases h with
  | found hnone _ =>
    rw [hold] at hnone
    cases hnone
  | grown hget _ =>
    rw [hold] at hget
    cases hget
    exact ⟨rfl, hcovers, List.forall₂_same.2 fun v _ => .refl v, fun _ _ ht => ht⟩

section

variable (h : (d.visit graph frame).outcome = .ok (next, frames))
include h

theorem visit_recorded (hr : graph.Recorded) : next.Recorded := by
  rcases visit_followed h with ⟨_, rfl, _⟩ | ⟨node, known, _, e, _, hknown, hget, _⟩
  · exact hr
  · intro offset other hother hinputs
    rw [hget] at hother
    split at hother
    · cases hother
      have hnew := hknown.inputs
      rw [hinputs] at hnew
      rw [hknown.toInstruction_eq]
      exact (Frame.popped_eq_nil_iff hknown.effect).1 (recordInputs_eq_nil hnew)
    · exact hr offset other hother hinputs

theorem visit_extends (hr : graph.Recorded) : next.Extends graph := by
  rcases visit_followed h with ⟨_, rfl, _⟩ | ⟨node, known, _, _, harrives, hknown, hget, _⟩
  · exact .refl _
  · intro offset old hold
    by_cases hoffset : offset = frame.ip
    · rw [hoffset] at hold
      have hgrown := harrives.extends hold
      refine ⟨known, by rw [hget, if_pos hoffset], (hknown.extends ?_).trans hgrown⟩
      intro hinputs
      have hlength := hgrown.inputs.length_eq
      rw [hinputs] at hlength
      rw [hgrown.instruction]
      exact hr _ old hold (List.length_eq_zero_iff.1 hlength.symm)
    · exact ⟨old, by rw [hget, if_neg hoffset, hold], .refl old⟩

end

theorem Passes.recorded {s : Search} (h : d.Passes exports s) : s.graph.Recorded := by
  induction h with
  | start => exact fun _ _ hnode => (nomatch hnode)
  | enter _ _ ih => exact ih
  | visit _ hvisit ih => exact visit_recorded hvisit ih

theorem visit_forall_nodes {P : Graph → Node → Prop}
    (h : (d.visit graph frame).outcome = .ok (next, frames)) (hr : graph.Recorded)
    (hold : ∀ offset old, graph.get? offset = some old → P graph old)
    (hgrows : ∀ {node}, next.Extends graph → P graph node → P next node)
    (hfollowed : ∀ {node known call e}, d.Arrives graph frame node →
      d.Followed (graph.insert node) node known call e →
      (∀ offset, next.get? offset = if offset = frame.ip then some known
        else graph.get? offset) → P next known) :
    ∀ offset node, next.get? offset = some node → P next node := by
  rcases visit_followed h with ⟨_, rfl, _⟩ | ⟨_, _, _, _, harrives, hknown, hget, _⟩
  · exact hold
  · intro offset node hnode
    have hnext := hget offset
    rw [hnode] at hnext
    split at hnext
    · cases hnext
      exact hfollowed harrives hknown hget
    · exact hgrows (visit_extends h hr) (hold offset node hnext.symm)

/-- What holds of every instruction when it has been followed, and is kept while the graph grows,
holds of the instructions of every graph that a discovery passes through. -/
theorem Passes.forall_nodes {P : Graph → Node → Prop}
    (hgrows : ∀ {graph next node}, next.Extends graph → P graph node → P next node)
    (hfollowed : ∀ {graph next frame frames rest node known call e},
      d.Passes exports ⟨graph, frame :: rest⟩ →
      (d.visit graph frame).outcome = .ok (next, frames) →
      (∀ offset old, graph.get? offset = some old → P graph old) →
      d.Arrives graph frame node → d.Followed (graph.insert node) node known call e →
      (∀ offset, next.get? offset = if offset = frame.ip then some known
        else graph.get? offset) → P next known)
    {s : Search} (h : d.Passes exports s) :
    ∀ offset node, s.graph.get? offset = some node → P s.graph node := by
  induction h with
  | start => exact fun _ _ hnode => (nomatch hnode)
  | enter _ _ ih => exact ih
  | visit hp hvisit ih =>
    exact visit_forall_nodes hvisit hp.recorded ih hgrows (hfollowed hp hvisit ih)

theorem Passes.drawnFrom (hisa : d.isa.CallsReturn) {s : Search} (h : d.Passes exports s) :
    s.graph.DrawnFrom d.isa := by
  induction h with
  | start => exact Graph.drawnFrom_empty _
  | enter _ _ ih => exact ih
  | visit _ hvisit ih => exact visit_drawnFrom hisa ih hvisit

end Discovery

end StackLift
