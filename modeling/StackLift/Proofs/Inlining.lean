import StackLift.Proofs.Depths
import StackLift.Proofs.Grounded
import StackLift.Proofs.Statements

namespace StackLift

namespace Graph

variable {graph : Graph}

theorem exists_variableRead? {slot : Slot} (hslot : slot ∈ graph.slots) {a : UInt32}
    (ha : a ∈ slot.input.sources) (hstored : a ∈ graph.placement.stored) :
    ∃ index, graph.outline.naming.variableRead? slot.input = some index := by
  have hproducer : a ∈ slot.storedProducers graph.placement.stored :=
    List.mem_filter.2 ⟨ha, decide_eq_true hstored⟩
  obtain ⟨index, hindex⟩ := exists_holder? hslot hproducer
  rw [← Option.isSome_iff_exists, Naming.variableRead?, List.findSome?_isSome_iff]
  exact ⟨a, ha, Option.isSome_iff_exists.2 ⟨index, hindex⟩⟩

theorem mem_inlined_of_not_stored {slot : Slot} (hslot : slot ∈ graph.slots) {a : UInt32}
    (ha : a ∈ slot.input.sources) (hget : graph.contains a = true)
    (hstored : a ∉ graph.placement.stored) : a ∈ graph.placement.inlined := by
  obtain ⟨node, hnode⟩ := contains_iff.1 hget
  have hstore : node.mustStore (readsOf graph.slots a) = false := by
    rw [Bool.eq_false_iff]
    exact fun hstore => hstored (mem_stored_iff.2 ⟨node, hnode, hstore⟩)
  have hfew : ¬1 < (readsOf graph.slots a).length := by
    intro hmany
    simp [Node.mustStore, hmany] at hstore
  have hread : 0 < (readsOf graph.slots a).length :=
    List.length_pos_of_mem (mem_readsOf.2 ⟨hslot, ha⟩)
  refine mem_inlined_iff.2 ⟨node, hnode, ?_⟩
  have hone : (readsOf graph.slots a).length = 1 := by omega
  simp [Node.isInlined, hstore, hone]

/-- A slot with a producer in the graph reads a variable, or its only producer is inlined. -/
theorem read_or_inlined {slot : Slot} (hslot : slot ∈ graph.slots) {a : UInt32}
    (ha : a ∈ slot.input.sources) (hget : graph.contains a = true) :
    (∃ index, graph.outline.naming.variableRead? slot.input = some index) ∨
      slot.input.sources.toList = [a] ∧ a ∈ graph.placement.inlined := by
  by_cases hstored : a ∈ graph.placement.stored
  · exact .inl (exists_variableRead? hslot ha hstored)
  · have honly : slot.input.sources = .singleton a := by
      apply OffsetSet.ext_mem
      intro b
      rw [OffsetSet.mem_singleton]
      constructor
      · intro hb
        by_contra hne
        exact hstored (mem_stored_of_meet hslot ha hb (Ne.symm hne) hget)
      · rintro rfl
        exact ha
    rw [honly]
    exact .inr ⟨rfl, mem_inlined_of_not_stored hslot ha hget hstored⟩

theorem slot_eq_of_inlined {a : UInt32} (h : a ∈ graph.placement.inlined) {s t : Slot}
    (hs : s ∈ graph.slots) (ht : t ∈ graph.slots) (has : a ∈ s.input.sources)
    (hat : a ∈ t.input.sources) : s = t := by
  obtain ⟨node, _, hinline⟩ := mem_inlined_iff.1 h
  rw [Node.isInlined, Bool.and_eq_true, decide_eq_true_eq] at hinline
  obtain ⟨slot, hslot⟩ := List.length_eq_one_iff.1 hinline.2
  have hs := mem_readsOf.2 ⟨hs, has⟩
  have ht := mem_readsOf.2 ⟨ht, hat⟩
  rw [hslot, List.mem_singleton] at hs ht
  rw [hs, ht]

/-- An offset outside of `path`; and what is inlined of it and of `path` is read in `path` only. -/
structure Enclosed (graph : Graph) (path : OffsetSet) (offset : UInt32) : Prop where
  outside : offset ∉ path
  readers : ∀ a, a ∈ path ∨ a = offset → a ∈ graph.placement.inlined →
    ∀ slot ∈ graph.slots, a ∈ slot.input.sources → slot.reader.offset ∈ path

theorem enclosed_root {offset : UInt32} (h : offset ∉ graph.placement.inlined) :
    graph.Enclosed .empty offset := by
  refine ⟨OffsetSet.not_mem_empty offset, ?_⟩
  rintro a (ha | rfl) hinlined
  · exact absurd ha (OffsetSet.not_mem_empty a)
  · exact absurd hinlined h

theorem Enclosed.producer {path : OffsetSet} {slot : Slot} (hslot : slot ∈ graph.slots)
    (h : graph.Enclosed path slot.reader.offset) {a : UInt32} (ha : a ∈ slot.input.sources)
    (hinlined : a ∈ graph.placement.inlined) :
    graph.Enclosed (path.insert slot.reader.offset) a := by
  constructor
  · intro hmem
    have hmet : a ∈ path ∨ a = slot.reader.offset := (OffsetSet.mem_insert.1 hmem).symm
    exact h.outside (h.readers a hmet hinlined slot hslot ha)
  · rintro b (hb | rfl) hb' other hother hread
    · have hmet : b ∈ path ∨ b = slot.reader.offset := (OffsetSet.mem_insert.1 hb).symm
      exact OffsetSet.mem_insert.2 (.inr (h.readers b hmet hb' other hother hread))
    · rw [slot_eq_of_inlined hb' hother hslot hread ha]
      exact OffsetSet.mem_insert.2 (.inl rfl)

end Graph

namespace Outline

variable {o : Outline} {path : OffsetSet}

theorem arguments_ok {offset : UInt32} {slot : Nat} {inputs : List Provenance}
    (h : ∀ k input, inputs[k]? = some input →
      ∃ argument, o.argument path ⟨offset, slot + k⟩ input = .ok argument) :
    ∃ arguments, o.arguments path offset slot inputs = .ok arguments := by
  induction inputs generalizing slot with
  | nil => exact ⟨[], by rw [Outline.arguments]⟩
  | cons input rest ih =>
    obtain ⟨first, hfirst⟩ := h 0 input rfl
    have hrest : ∀ k input, rest[k]? = some input →
        ∃ argument, o.argument path ⟨offset, slot + 1 + k⟩ input = .ok argument := by
      intro k input hinput
      rw [Nat.add_assoc, Nat.add_comm 1 k]
      exact h (k + 1) input hinput
    obtain ⟨others, hothers⟩ := ih hrest
    refine ⟨first :: others, ?_⟩
    rw [Outline.arguments]
    exact bind_eq_ok.2 ⟨first, hfirst, bind_eq_ok.2 ⟨others, hothers, rfl⟩⟩

theorem argument_of_read {site : Site} {input : Provenance} {index : Nat}
    (h : o.naming.variableRead? input = some index) :
    o.argument path site input = .ok (.read index site) := by
  rw [argument, h]

theorem argument_of_inlined {site : Site} {input : Provenance} {a : UInt32} {node : Node}
    (hread : o.naming.variableRead? input = none) (hsources : input.sources.toList = [a])
    (ha : a ∈ o.inlined) (hnode : o.graph.get? a = some node) :
    o.argument path site input = o.expression path node := by
  have hproducer : o.inlinedProducer? input = some a := by
    rw [inlinedProducer?, hsources]
    exact if_pos ha
  rw [argument, hread]
  simp only [hproducer, hnode]

end Outline

namespace Graph

variable {graph : Graph}

def Bound (graph : Graph) : Prop :=
  ∀ slot ∈ graph.slots, ∃ a ∈ slot.input.sources, graph.contains a = true

theorem expression_ok (hbound : graph.Bound) (hroomy : graph.Roomy) {path : OffsetSet} {node : Node}
    (hnode : graph.get? node.offset = some node) (h : graph.Enclosed path node.offset) :
    ∃ expression, graph.outline.expression path node = .ok expression := by
  -- Every instruction on the way to a producer takes up some of the room that the path has.
  induction hroom : UInt32.size - path.size using Nat.strongRecOn generalizing path node with
  | ind room ih =>
    have harguments : ∃ arguments, graph.outline.arguments (path.insert node.offset) node.offset 0
        node.argumentInputs = .ok arguments := by
      apply Outline.arguments_ok
      intro k input hinput
      let slot : Slot := ⟨node, k, input⟩
      have hslot : slot ∈ graph.slots :=
        mem_slots_iff.2 ⟨hnode, Node.inputs_of_argumentInputs hinput⟩
      obtain ⟨a, ha, hget⟩ := hbound slot hslot
      obtain ⟨producer, hproducer⟩ := contains_iff.1 hget
      have hoffset : producer.offset = a := offset_of_get? hproducer
      cases hread : graph.outline.naming.variableRead? input with
      | some index => exact ⟨_, Outline.argument_of_read hread⟩
      | none =>
        rcases read_or_inlined hslot ha hget with ⟨index, hindex⟩ | ⟨hsources, hinlined⟩
        · rw [hread] at hindex
          cases hindex
        · rw [Outline.argument_of_inlined hread hsources hinlined hproducer]
          have hlt : UInt32.size - (path.insert node.offset).size < room :=
            hroom ▸ OffsetSet.room_insert_lt h.outside
          apply ih _ hlt (by rw [hoffset, hproducer]) ?_ rfl
          rw [hoffset]
          exact h.producer hslot ha hinlined
    obtain ⟨arguments, harguments⟩ := harguments
    refine ⟨node.toExpression arguments, ?_⟩
    rw [Outline.expression, if_neg h.outside, reserve_bind (hroomy _ _ hnode)]
    exact bind_eq_ok.2 ⟨arguments, harguments, rfl⟩

theorem statements_ok (hbound : graph.Bound) (hroomy : graph.Roomy) {offsets : List UInt32}
    (h : ∀ offset ∈ offsets, graph.contains offset = true) :
    ∃ statements, graph.outline.statements offsets = .ok statements := by
  induction offsets with
  | nil => exact ⟨[], rfl⟩
  | cons offset rest ih =>
    obtain ⟨others, hothers⟩ := ih fun a ha => h a (List.mem_cons_of_mem _ ha)
    obtain ⟨node, hnode⟩ := contains_iff.1 (h offset List.mem_cons_self)
    have hoffset : node.offset = offset := offset_of_get? hnode
    have hnode' : graph.outline.graph.get? offset = some node := hnode
    simp only [Outline.statements, hnode']
    split
    · exact ⟨others, hothers⟩
    · next hinlined =>
      obtain ⟨expression, hexpression⟩ := expression_ok hbound hroomy
        (by rw [hoffset, hnode])
        (enclosed_root (hoffset ▸ hinlined))
      exact ⟨_, bind_eq_ok.2 ⟨expression, hexpression, bind_eq_ok.2 ⟨others, hothers, rfl⟩⟩⟩

/-- A graph that has its successors, a producer for every slot and room for all arguments has a
listing from each of its offsets. -/
theorem build_ok (hbound : graph.Bound) (hroomy : graph.Roomy)
    (hclosed : ∀ offset t, t ∈ graph.successors offset → graph.contains t = true)
    {start : UInt32} (hstart : graph.contains start = true) :
    ∃ listing, (graph.build start).outcome = .ok listing := by
  have hwalk : ∀ offset ∈ graph.walk start, graph.contains offset = true :=
    forall_mem_walkFrom (fun a ha => List.mem_singleton.1 ha ▸ hstart) fun a _ => hclosed a
  obtain ⟨statements, hstatements⟩ := statements_ok hbound hroomy hwalk
  have hlisting : ∃ listing, graph.listingFrom start = .ok listing :=
    ⟨_, by rw [listingFrom_eq, hstatements]; rfl⟩
  obtain ⟨listing, hlisting⟩ := hlisting
  refine ⟨listing, Traced.outcome_bind_eq_ok.2 ⟨(), rfl, ?_⟩⟩
  exact Traced.outcome_bind_eq_ok.2 ⟨listing, hlisting, rfl⟩

theorem Grounded.bound {agenda : List Frame} (h : graph.Grounded agenda) : graph.Bound := by
  intro slot hslot
  obtain ⟨hreader, hinput⟩ := mem_slots_iff.1 hslot
  have hgrounded := (h.nodes _ _ hreader).inputs slot.input (List.mem_of_getElem? hinput)
  obtain ⟨a, ha⟩ := Provenance.exists_mem_of_isEntry hgrounded.filled
  exact ⟨a, ha, hgrounded.within a ha⟩

end Graph

namespace Discovery

theorem Passes.build_ok {d : Discovery} {exports : List Export} {graph : Graph}
    (h : d.Passes exports ⟨graph, []⟩) {start : UInt32} (hstart : graph.contains start = true) :
    ∃ listing, (graph.build start).outcome = .ok listing :=
  Graph.build_ok h.grounded.bound h.roomy (fun _ _ => h.grounded.contains_successor) hstart

/-- What is discovered can be built from any of its offsets, whatever the instruction set, if sums
that overflow panic. If they wrap, it can be built unless some service takes as many arguments as a
word can count. -/
theorem build_succeeds {d : Discovery} {exports : List Export} {graph : Graph} {overflow : Overflow}
    (hfits : overflow = .wraps → ∀ call ∈ d.isa.calls, call.signature.FitsWord)
    (h : (d.discover exports overflow).outcome = .ok graph) {start : UInt32}
    (hstart : graph.contains start = true) :
    ∃ listing, (graph.build start).outcome = .ok listing := by
  cases overflow with
  | panics => exact (passes_of_discover h).build_ok hstart
  | wraps =>
    rw [discover_wraps (hfits rfl)] at h
    exact (passes_of_discover h).build_ok hstart

/-- `PUSHI_DWORD 2; PUSHI_DWORD 3; ADD_DWORD; PUSHI_DWORD 1; VCALL; POP R4; PUSHI_DWORD 0; JMP`. The
operands of the sum are inlined into it, and the sum and the selector into the call, in a loop. -/
def boxing : Discovery :=
  ⟨(maskBytes 0 0 [0x04, 2, 0, 0, 0, 0x04, 3, 0, 0, 0, 0x10, 0x04, 1, 0, 0, 0, 0x40, 0x06, 4,
      0x04, 0, 0, 0, 0, 0x30]).toArray, .reference, .ofPresets []⟩

theorem boxing_build_succeeds :
    (∀ call ∈ boxing.isa.calls, call.signature.FitsWord) ∧
    ∃ graph, (boxing.discover [⟨0, 0⟩] .wraps).outcome = .ok graph ∧ graph.contains 17 = true ∧
      graph.placement.inlined.toList = [0, 5, 10, 11] ∧
      ∃ listing, (graph.build 17).outcome = .ok listing := by
  have hfits : ∀ call ∈ boxing.isa.calls, call.signature.FitsWord := by decide
  have hrun : (boxing.discoverWithin 40 [⟨0, 0⟩] .wraps).map (fun outcome =>
      outcome.map fun graph => (graph.contains 17, graph.placement.inlined.toList)) =
      some (.ok (true, [0, 5, 10, 11])) := by cbv
  obtain ⟨graph, hgraph, hfacts⟩ := exists_discovered _ hrun
  obtain ⟨hstart, hinlined⟩ := Prod.mk.inj hfacts
  exact ⟨hfits, graph, hgraph, hstart, hinlined, build_succeeds (fun _ => hfits) hgraph hstart⟩

/-- Where sums wrap, a call of a service with so many arguments consumes nothing, and cannot be
built. -/
theorem demanding_build_panics :
    ∃ graph, ((demanding 0xffffffffffffffff).discover [⟨0, 0⟩] .wraps).outcome = .ok graph ∧
      graph.contains 0 = true ∧ (graph.build 0).outcome = .error .capacityOverflow := by
  have hrun : ((demanding 0xffffffffffffffff).discoverWithin 10 [⟨0, 0⟩] .wraps).map
      (fun outcome => outcome.map fun graph => (graph.contains 0,
        match graph.listingFrom 0 with
        | .error fault => some fault
        | .ok _ => none)) =
      some (.ok (true, some .capacityOverflow)) := by cbv
  obtain ⟨graph, hgraph, hfacts⟩ := exists_discovered _ hrun
  obtain ⟨hstart, hfault⟩ := Prod.mk.inj hfacts
  have hlisting : graph.listingFrom 0 = .error .capacityOverflow := by
    cases h : graph.listingFrom 0 with
    | error fault =>
      rw [h] at hfault
      exact congrArg _ (Option.some.inj hfault)
    | ok listing =>
      rw [h] at hfault
      cases hfault
  refine ⟨graph, hgraph, hstart, Traced.outcome_bind_eq_error.2 (.inr ⟨(), rfl, ?_⟩)⟩
  exact Traced.outcome_bind_eq_error.2 (.inl hlisting)

end Discovery

end StackLift
