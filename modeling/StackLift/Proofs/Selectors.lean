import StackLift.Proofs.Accumulation
import StackLift.Proofs.Calls
import StackLift.Proofs.Inputs

namespace StackLift

variable {graph next : Graph} {isa : InstructionSet} {node : Node} {call : Call}
  {input : Provenance}

/-- The call of a node is that of the service which its last input selects. Where all sources of the
input supply a word, that of the greatest of them is the selector. -/
structure Graph.Selects (graph : Graph) (isa : InstructionSet) (node : Node) (call : Call)
    (input : Provenance) : Prop where
  recorded : node.call? = some call
  signature : isa.signature? call.selector = some call.signature
  last : node.inputs.getLast? = some input
  within : input.Within fun a => graph.contains a = true
  selector : ∀ a word, (∀ b ∈ input.sources, ∃ word, graph.Supplies b word) →
    IsGreatest {b | b ∈ input.sources} a → graph.Supplies a word → call.selector = word

theorem Graph.Selects.mono (h : graph.Selects isa node call input) (hext : next.Extends graph) :
    next.Selects isa node call input := by
  have hearlier : ∀ a ∈ input.sources, ∀ word, next.Supplies a word → graph.Supplies a word :=
    fun a ha word => Discovery.supplies_of_extends hext (h.within a ha)
  refine ⟨h.recorded, h.signature, h.last, ?_, ?_⟩
  · intro a ha
    obtain ⟨old, hold⟩ := Graph.contains_iff.1 (h.within a ha)
    obtain ⟨node, hnode, _⟩ := hext a old hold
    exact Graph.contains_iff.2 ⟨node, hnode⟩
  · intro a word hsupplies hgreatest ha
    apply h.selector a word ?_ hgreatest (hearlier a hgreatest.1 word ha)
    intro b hb
    obtain ⟨word', hword'⟩ := hsupplies b hb
    exact ⟨word', hearlier b hb word' hword'⟩

namespace Discovery

variable {d : Discovery} {exports : List Export} {frame : Frame} {known : Node} {e : Effect}
  {offset : UInt32} {s : Search}

theorem selector_cases {selector : UInt64} (h : d.selector graph node = .ok selector) :
    ∃ cell, node.frame.top? = some cell ∧ d.fold graph cell = .ok selector := by
  rw [Discovery.selector] at h
  split at h
  · cases h
  · next cell hcell =>
    split at h
    · cases h
    · next hfold =>
      cases h
      exact ⟨cell, hcell, hfold⟩

theorem service_cases {selector : UInt64} (h : d.service offset selector = .ok call) :
    call.selector = selector ∧ d.isa.signature? selector = some call.signature := by
  rw [Discovery.service] at h
  split at h
  · cases h
  · next hsignature =>
    cases h
    exact ⟨rfl, hsignature⟩

theorem call_of_resolveCall? (h : (d.resolveCall? graph node).outcome = .ok (some call)) :
    ∃ cell, node.frame.top? = some cell ∧ d.fold graph cell = .ok call.selector ∧
      d.isa.signature? call.selector = some call.signature := by
  rw [resolveCall?] at h
  split at h
  · split at h
    · obtain ⟨selector, hselector, h⟩ := Traced.outcome_bind_eq_ok.1 h
      obtain ⟨service, hservice, h⟩ := Traced.outcome_bind_eq_ok.1 h
      cases h
      obtain ⟨cell, hcell, hfold⟩ := selector_cases hselector
      obtain ⟨rfl, hsignature⟩ := service_cases hservice
      exact ⟨cell, hcell, hfold, hsignature⟩
    · cases h
  · cases h

theorem Followed.inputs_ne_nil {call : Option Call} (h : d.Followed graph node known call e)
    (harity : node.opcode.variableArity = true) : known.inputs ≠ [] := by
  intro hnil
  have hinputs := h.inputs
  rw [hnil] at hinputs
  have hpops := (Frame.popped_eq_nil_iff h.effect).1 (recordInputs_eq_nil hinputs)
  rw [pops_of_resolveCall? h.resolved harity] at hpops
  cases hpops

/-- Following a call records its service. The graph behind holds what was followed and is otherwise
the same, so that the same words are supplied in it, except by the call. -/
theorem Followed.selects {call : Option Call} (h : d.Followed graph node known call e)
    (harity : node.opcode.variableArity = true) (hreturns : node.opcode.transfersControl = false)
    (hself : next.get? node.offset = some known)
    (hrest : ∀ offset, offset ≠ node.offset → next.get? offset = graph.get? offset)
    (hinputs : known.InputsOnTop)
    (hwithin : ∀ input ∈ known.inputs, input.Within fun a => next.contains a = true) :
    ∃ call input, next.Selects d.isa known call input := by
  have hne := h.inputs_ne_nil harity
  rcases resolveCall?_cases h.resolved with ⟨hfixed, _⟩ | ⟨_, service, rfl⟩
  · rw [harity] at hfixed
    cases hfixed
  obtain ⟨cell, htop, hfold, hsignature⟩ := call_of_resolveCall? h.resolved
  have hlast : known.inputs.getLast? = some cell := by
    rw [hinputs.getLast? hne, h.frame_eq, htop]
  refine ⟨service, cell, ?_, hsignature, hlast, hwithin cell (List.mem_of_getLast? hlast), ?_⟩
  · rw [h.eq, resolveTarget_of_not_transfersControl h.inferred hreturns]
    rfl
  · have hsame : ∀ a word, next.Supplies a word → graph.Supplies a word := by
      rintro a word ⟨other, hother, hnil, hword⟩
      by_cases ha : a = node.offset
      · rw [ha, hself] at hother
        cases hother
        exact absurd hnil hne
      · exact ⟨other, hrest a ha ▸ hother, hnil, hword⟩
    intro a word hsupplies hgreatest ha
    have hword := Graph.fold_of_supplies d.machine
      (fun b hb => (hsupplies b hb).imp (hsame b)) hgreatest (hsame a word ha)
    exact Except.ok.inj (hfold.symm.trans hword)

theorem Passes.selects (hisa : d.isa.CallsReturn) (h : d.Passes exports s) :
    ∀ offset node, s.graph.get? offset = some node → node.opcode.variableArity = true →
      ∃ call input, s.graph.Selects d.isa node call input := by
  apply h.forall_nodes (P := fun graph node => node.opcode.variableArity = true →
    ∃ call input, graph.Selects d.isa node call input)
  · intro graph next node hext hselects harity
    obtain ⟨call, input, hselects⟩ := hselects harity
    exact ⟨call, input, hselects.mono hext⟩
  · intro graph next frame frames rest node known call e hp hvisit _ harrives hknown hget harity
    have hbehind := hp.visit hvisit
    obtain ⟨hself, hrest⟩ := harrives.get?_next hget
    rw [hknown.toInstruction_eq] at harity
    have hopcode := (harrives.admits (hp.drawnFrom hisa)).opcode
    exact hknown.selects harity (hisa _ hopcode harity) hself hrest
      (hbehind.inputsOnTop _ known hself)
      fun input hinput => ((hbehind.grounded.nodes _ known hself).inputs input hinput).within

/-- The call of a service has a selector that the instruction set knows, and its last input is where
the selector comes from. If only immediate pushes produce that input, the selector is what the last
of them by offset pushes. It is what all of them push if and only if they push the same. -/
theorem selector_of_pushes (hisa : d.isa = .reference)
    (h : (d.discover exports).outcome = .ok graph) (hnode : graph.get? offset = some node)
    (hcode : node.opcode.code = Code.callService) :
    ∃ call input, node.call? = some call ∧
      d.isa.signature? call.selector = some call.signature ∧
      node.inputs.getLast? = some input ∧
      ((∀ a ∈ input.sources, ∃ word, graph.Pushes a word) →
        (∃ a, IsGreatest {b | b ∈ input.sources} a ∧ graph.Pushes a call.selector) ∧
        ((∀ a ∈ input.sources, graph.Pushes a call.selector) ↔
          ∃ word, ∀ a ∈ input.sources, graph.Pushes a word)) := by
  have hreturn : d.isa.CallsReturn := hisa ▸ InstructionSet.reference_callsReturn
  have hp := passes_of_discover h
  have hopcode : node.opcode ∈ InstructionSet.reference.opcodes :=
    hisa ▸ (hp.drawnFrom hreturn offset node hnode).opcode
  have hrow : ∀ opcode ∈ InstructionSet.reference.opcodes, opcode.code = Code.callService →
      opcode.variableArity = true := by decide
  obtain ⟨call, input, hselects⟩ :=
    hp.selects hreturn offset node hnode (hrow node.opcode hopcode hcode)
  refine ⟨call, input, hselects.recorded, hselects.signature, hselects.last, ?_⟩
  intro hpushes
  obtain ⟨b, hb⟩ := Provenance.exists_mem_of_isEntry
    ((hp.grounded.nodes offset node hnode).inputs input (List.mem_of_getLast? hselects.last)).filled
  obtain ⟨a, hgreatest⟩ := OffsetSet.exists_isGreatest hb
  have hselector : ∀ word, graph.Pushes a word → call.selector = word := by
    intro word ha
    apply hselects.selector a word ?_ hgreatest (supplies_of_pushes hisa h ha)
    intro c hc
    obtain ⟨word', hword'⟩ := hpushes c hc
    exact ⟨word', supplies_of_pushes hisa h hword'⟩
  constructor
  · obtain ⟨word, ha⟩ := hpushes a hgreatest.1
    rw [hselector word ha]
    exact ⟨a, hgreatest, ha⟩
  · constructor
    · exact fun hall => ⟨call.selector, hall⟩
    · rintro ⟨word, hall⟩
      rw [hselector word (hall a hgreatest.1)]
      exact hall

/-- `PUSHI_DWORD 5; PUSHI_DWORD 0; PUSHI_DWORD 27; JNZ`, then `PUSHI_DWORD 1; PUSHI_DWORD 32; JMP`
to the `VCALL`, and at 27 `PUSHI_DWORD 2` in front of it: `VCALL; RET`. -/
def choosing : Discovery :=
  ⟨(maskBytes 0 0 [0x04, 5, 0, 0, 0, 0x04, 0, 0, 0, 0, 0x04, 27, 0, 0, 0, 0x32, 0x04, 1, 0, 0, 0,
      0x04, 32, 0, 0, 0, 0x30, 0x04, 2, 0, 0, 0, 0x40, 0x34]).toArray, .reference, .ofPresets []⟩

/-- The services that are selected on the two ways to the `VCALL` both consume one argument, and the
one that is selected at 27 is recorded. -/
theorem choosing_graph :
    ∃ graph node call input, (choosing.discover [⟨0, 0⟩]).outcome = .ok graph ∧
      graph.get? 32 = some node ∧ node.opcode.code = Code.callService ∧
      node.call? = some call ∧ call.selector = 2 ∧ node.inputs.getLast? = some input ∧
      (16 ∈ input.sources ∧ graph.Pushes 16 1) ∧
      ∀ a ∈ input.sources, ∃ word, graph.Pushes a word := by
  have hrun : (choosing.discoverWithin 40 [⟨0, 0⟩]).map (fun outcome => outcome.map fun graph => do
      let node ← graph.get? 32
      let call ← node.call?
      let input ← node.inputs.getLast?
      let low ← graph.get? 16
      let high ← graph.get? 27
      return (node.opcode.code, call.selector, input.sources.toList,
        (low.opcode.code, low.operand), high.opcode.code, high.operand)) =
      some (.ok (some (Code.callService, 2, [16, 27], (Code.pushDword, .immediate 1),
        Code.pushDword, .immediate 2))) := by cbv
  obtain ⟨graph, hgraph, hfacts⟩ := exists_discovered _ hrun
  simp only [Option.bind_eq_bind, Option.bind_eq_some_iff, Option.pure_def, Option.some.injEq,
    Prod.mk.injEq] at hfacts
  obtain ⟨node, hnode, call, hcall, input, hinput, low, hlow, high, hhigh, hcode, hselector,
    hsources, ⟨hlowcode, hlowoperand⟩, hhighcode, hhighoperand⟩ := hfacts
  have hpushes : graph.Pushes 16 1 := ⟨low, hlow, .inl hlowcode, hlowoperand⟩
  refine ⟨graph, node, call, input, hgraph, hnode, hcode, hcall, hselector, hinput, ⟨?_, hpushes⟩,
    ?_⟩
  · rw [← OffsetSet.mem_toList, hsources]
    exact List.mem_cons_self
  · intro a ha
    rw [← OffsetSet.mem_toList, hsources, List.mem_pair] at ha
    rcases ha with rfl | rfl
    · exact ⟨1, hpushes⟩
    · exact ⟨2, high, hhigh, .inl hhighcode, hhighoperand⟩

theorem choosing_selector_of_pushes :
    ∃ graph node, choosing.isa = .reference ∧ (choosing.discover [⟨0, 0⟩]).outcome = .ok graph ∧
      graph.get? 32 = some node ∧ node.opcode.code = Code.callService ∧
      ∃ call input, node.call? = some call ∧
        choosing.isa.signature? call.selector = some call.signature ∧
        node.inputs.getLast? = some input ∧
        ((∀ a ∈ input.sources, ∃ word, graph.Pushes a word) →
          (∃ a, IsGreatest {b | b ∈ input.sources} a ∧ graph.Pushes a call.selector) ∧
          ((∀ a ∈ input.sources, graph.Pushes a call.selector) ↔
            ∃ word, ∀ a ∈ input.sources, graph.Pushes a word)) := by
  obtain ⟨graph, node, _, _, hgraph, hnode, hcode, _⟩ := choosing_graph
  exact ⟨graph, node, rfl, hgraph, hnode, hcode, selector_of_pushes rfl hgraph hnode hcode⟩

/-- Not every selector that may be pushed for a call is the one that is recorded. -/
theorem choosing_misses_selector :
    ¬∀ (d : Discovery) (exports : List Export) (graph : Graph), d.isa = .reference →
      (d.discover exports).outcome = .ok graph →
      ∀ offset node call input, graph.get? offset = some node →
        node.opcode.code = Code.callService → node.call? = some call →
        node.inputs.getLast? = some input →
        (∀ a ∈ input.sources, ∃ word, graph.Pushes a word) →
        ∀ a ∈ input.sources, graph.Pushes a call.selector := by
  intro hall
  obtain ⟨graph, node, call, input, hgraph, hnode, hcode, hcall, hselector, hlast,
    ⟨hlow, low, hlownode, _, hoperand⟩, hpushes⟩ := choosing_graph
  obtain ⟨low', hlownode', _, hoperand'⟩ := hall choosing [⟨0, 0⟩] graph rfl hgraph 32 node call
    input hnode hcode hcall hlast hpushes 16 hlow
  rw [hlownode] at hlownode'
  cases hlownode'
  rw [hoperand, hselector] at hoperand'
  exact absurd hoperand' (by decide)

end Discovery

end StackLift
