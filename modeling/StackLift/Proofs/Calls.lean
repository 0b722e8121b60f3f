import StackLift.Proofs.Growth

namespace StackLift

structure Node.Calls (node : Node) : Prop where
  fixed : node.opcode.variableArity = false → node.call? = none
  varying : node.opcode.variableArity = true →
    ∃ call, node.call? = some call ∧ node.inputs.length = call.signature.arguments.toNat + 1

/-- Only what depends on a service has a call recorded, and it consumes the arguments of that call
and the selector. -/
structure Node.Spends (node : Node) : Prop where
  fixed : node.opcode.variableArity = false → node.call? = none
  length : ∀ call, node.call? = some call →
    node.inputs.length = call.signature.arguments.toNat + 1

theorem Node.spends_of_call?_eq_none {node : Node} (h : node.call? = none) : node.Spends := by
  refine ⟨fun _ => h, fun call hcall => ?_⟩
  rw [h] at hcall
  cases hcall

namespace Discovery

variable {d : Discovery} {exports : List Export} {graph next : Graph} {frame : Frame}
  {frames : List Frame} {node known : Node} {call : Option Call} {e : Effect}

theorem call?_of_gainTarget (node : Node) {offset target : UInt32} {known inferred : Inferred}
    (h : (gainTarget offset target known).outcome = .ok inferred) :
    ({ node with inferred := inferred } : Node).call? = none := by
  cases known with
  | nothing | call =>
    cases h
    rfl
  | targets targets =>
    rw [gainTarget] at h
    split at h <;> cases h <;> rfl

theorem pops_of_resolveCall? (h : (d.resolveCall? graph node).outcome = .ok call)
    (harity : node.opcode.variableArity = true) : node.opcode.pops = .variable := by
  rw [resolveCall?, if_pos harity] at h
  split at h
  · assumption
  · cases h

theorem Followed.call?_eq (h : d.Followed graph node known call e)
    (harity : known.opcode.variableArity = true) (hstays : known.opcode.transfersControl = false) :
    known.call? = call := by
  rw [h.toInstruction_eq] at harity hstays
  rcases resolveCall?_cases h.resolved with ⟨hfixed, _⟩ | ⟨_, service, rfl⟩
  · rw [harity] at hfixed
    cases hfixed
  · rw [h.eq, resolveTarget_of_not_transfersControl h.inferred hstays]
    rfl

theorem Followed.length_inputs {service : Call}
    (h : d.Followed graph node known (some service) e) :
    known.inputs.length = service.signature.arguments.toNat + 1 := by
  have hcount := Frame.count?_popped h.effect
  rcases resolveCall?_cases h.resolved with ⟨_, hnone⟩ | ⟨harity, _⟩
  · cases hnone
  · rw [pops_of_resolveCall? h.resolved harity] at hcount
    rw [(recordInputs_covers h.inputs).length_eq]
    exact (Option.some.inj hcount).symm

/-- Following an instruction records its call, unless that gives way to a target. -/
theorem Followed.spends (h : d.Followed graph node known call e)
    (hnode : node.opcode.variableArity = false → node.call? = none) : known.Spends := by
  have hsame : known.opcode = node.opcode := by rw [h.toInstruction_eq]
  have hinferred := h.inferred
  cases htransfers : node.opcode.transfersControl with
  | true =>
    have htransfers' : (node.consuming known.inputs call).opcode.transfersControl = true :=
      htransfers
    rw [resolveTarget, if_pos htransfers'] at hinferred
    obtain ⟨_, _, hinferred⟩ := Traced.outcome_bind_eq_ok.1 hinferred
    apply Node.spends_of_call?_eq_none
    rw [h.eq]
    exact call?_of_gainTarget node hinferred
  | false =>
    have hkept := resolveTarget_of_not_transfersControl hinferred htransfers
    rcases resolveCall?_cases h.resolved with ⟨harity, rfl⟩ | ⟨harity, service, rfl⟩
    · apply Node.spends_of_call?_eq_none
      rw [h.eq, hkept]
      exact hnode harity
    · have hcall : known.call? = some service :=
        h.call?_eq (hsame ▸ harity) (hsame ▸ htransfers)
      refine ⟨fun hfixed => ?_, fun call hother => ?_⟩
      · rw [hsame, harity] at hfixed
        cases hfixed
      · obtain rfl := Option.some.inj (hcall.symm.trans hother)
        exact h.length_inputs

theorem Arrives.call?_eq_none (h : d.Arrives graph frame node)
    (hold : ∀ offset old, graph.get? offset = some old → old.Spends)
    (harity : node.opcode.variableArity = false) : node.call? = none := by
  cases h with
  | found _ hdecode => rw [Node.call?, inferred_of_decode hdecode]
  | grown hget _ => exact (hold _ _ hget).fixed harity

theorem Passes.spends {s : Search} (h : d.Passes exports s) :
    ∀ offset node, s.graph.get? offset = some node → node.Spends := by
  apply h.forall_nodes (P := fun _ node => node.Spends) (fun _ hp => hp)
  intro graph next frame frames rest node known call e _ _ hold harrives hknown _
  exact hknown.spends (harrives.call?_eq_none hold)

theorem Passes.calls (hisa : d.isa.CallsReturn) {s : Search} (h : d.Passes exports s) :
    ∀ offset node, s.graph.get? offset = some node → node.Calls := by
  apply h.forall_nodes (P := fun _ node => node.Calls) (fun _ hp => hp)
  intro graph next frame frames rest node known call e hp _ _ harrives hknown _
  have hspends := hknown.spends (harrives.call?_eq_none hp.spends)
  refine ⟨hspends.fixed, fun hvariable => ?_⟩
  have hopcode : known.opcode ∈ d.isa.opcodes := by
    rw [hknown.toInstruction_eq]
    exact (harrives.admits (hp.drawnFrom hisa)).opcode
  have hcall := hknown.call?_eq hvariable (hisa _ hopcode hvariable)
  rcases resolveCall?_cases hknown.resolved with ⟨hfixed, _⟩ | ⟨_, service, rfl⟩
  · rw [hknown.toInstruction_eq, hfixed] at hvariable
    cases hvariable
  · exact ⟨service, hcall, hspends.length service hcall⟩

end Discovery

end StackLift
