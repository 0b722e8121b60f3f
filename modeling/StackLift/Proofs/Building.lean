import StackLift.Proofs.Inlinable
import StackLift.Proofs.Occurrences

namespace StackLift

namespace Graph

variable {graph : Graph} {start offset : UInt32}

/-- Recorded successors lead from `start` to the offset. -/
def Leads (graph : Graph) (start offset : UInt32) : Prop :=
  ∃ earlier, graph.Path start (offset :: earlier)

/-- The producer at the offset is inlined into an argument of the instruction at `reader`. -/
def Takes (graph : Graph) (offset reader : UInt32) : Prop :=
  ∃ slot, graph.Inlines slot offset ∧ slot.reader.offset = reader ∧
    slot.reader.argumentInputs[slot.index]? = some slot.input

/-- An instruction that is listed: control flow leads to it, and it stands for itself, or it is
inlined into an argument of one that is listed. -/
inductive Listed (graph : Graph) (start : UInt32) : UInt32 → Prop
  | met {offset : UInt32} : graph.Leads start offset → ¬graph.Inlinable offset →
      Listed graph start offset
  | taken {offset reader : UInt32} : Listed graph start reader → graph.Takes offset reader →
      Listed graph start offset

def Provides (graph : Graph) (input : Provenance) : Prop :=
  ∃ a ∈ input.sources, graph.contains a = true

theorem Leads.step (h : graph.Leads start offset) {t : UInt32}
    (ht : t ∈ graph.successors offset) : graph.Leads start t := by
  obtain ⟨earlier, hpath⟩ := h
  exact ⟨offset :: earlier, hpath.step ht⟩

theorem mem_walk_iff : offset ∈ graph.walk start ↔ graph.Leads start offset := by
  constructor
  · apply forall_mem_walkFrom (P := graph.Leads start) ?_ fun _ ha _ => ha.step
    intro a ha
    rw [List.mem_singleton.1 ha]
    exact ⟨[], .start⟩
  · rintro ⟨earlier, hpath⟩
    exact hpath.mem_walk offset List.mem_cons_self

section

variable {path : OffsetSet}

theorem Enclosed.takes {reader a : UInt32} (h : graph.Enclosed path reader)
    (ha : graph.Takes a reader) : graph.Enclosed (path.insert reader) a := by
  obtain ⟨slot, hinlines, rfl, _⟩ := ha
  exact h.producer hinlines.mem hinlines.read hinlines.mem_inlined

/-- No chain of inlined producers goes on for ever. -/
theorem Enclosed.acc (h : graph.Enclosed path offset) : Acc graph.Takes offset := by
  -- Every producer on the way takes up some of the room that the path has.
  induction hroom : UInt32.size - path.size using Nat.strongRecOn generalizing path offset with
  | ind room ih =>
    constructor
    intro a ha
    have hlt : UInt32.size - (path.insert offset).size < room :=
      hroom ▸ OffsetSet.room_insert_lt h.outside
    exact ih _ hlt (h.takes ha) rfl

theorem Listed.acc (h : graph.Listed start offset) : Acc graph.Takes offset := by
  induction h with
  | met _ hinlinable =>
    exact (enclosed_root fun h => hinlinable (mem_inlined_iff_inlinable.1 h)).acc
  | taken _ htakes ih => exact ih.inv htakes

end

theorem argument_eq_error {input : Provenance} (h : ¬graph.Provides input) (path : OffsetSet)
    (site : Site) :
    graph.outline.argument path site input = .error (.unboundDependency site.offset site.slot) := by
  have hread : graph.outline.naming.variableRead? input = none := by
    rw [← Option.not_isSome_iff_eq_none, Option.isSome_iff_exists]
    rintro ⟨index, hindex⟩
    obtain ⟨a, ha, hholder⟩ := Naming.exists_holder_of_variableRead? hindex
    obtain ⟨node, hnode, _⟩ := mem_stored_iff.1 (mem_stored_of_holder? hholder)
    exact h ⟨a, ha, contains_iff.2 ⟨node, hnode⟩⟩
  have hinlined : graph.outline.inlinedProducer? input = none := by
    have hnone : graph.outline.inlinedAt? input = none := by
      rw [Option.eq_none_iff_forall_ne_some]
      intro a ha
      obtain ⟨hinlined, hread⟩ := Outline.mem_of_inlinedAt? ha
      obtain ⟨node, hnode, _⟩ := mem_inlined_iff.1 hinlined
      exact h ⟨a, hread, contains_iff.2 ⟨node, hnode⟩⟩
    rwa [Outline.inlinedAt?, hread] at hnone
  rw [Outline.argument, hread]
  simp only [hinlined]

end Graph

namespace Outline

variable {o : Outline} {path : OffsetSet}

theorem error_of_arguments {offset : UInt32} {slot : Nat} {inputs : List Provenance} {fault : Fault}
    (h : o.arguments path offset slot inputs = .error fault) :
    ∃ k input, inputs[k]? = some input ∧
      o.argument path ⟨offset, slot + k⟩ input = .error fault := by
  induction inputs generalizing slot with
  | nil =>
    rw [Outline.arguments] at h
    cases h
  | cons input rest ih =>
    rw [Outline.arguments] at h
    rcases bind_eq_error.1 h with hfirst | ⟨first, _, h⟩
    · exact ⟨0, input, rfl, hfirst⟩
    · rcases bind_eq_error.1 h with hrest | ⟨others, _, h⟩
      · obtain ⟨k, other, hk, hother⟩ := ih hrest
        rw [Nat.add_assoc, Nat.add_comm 1 k] at hother
        exact ⟨k + 1, other, hk, hother⟩
      · cases h

inductive Fails (o : Outline) (offset : UInt32) (fault : Fault) : Prop
  | missing : o.graph.get? offset = none → fault = .missingInstruction offset →
      Fails o offset fault
  | expression {node : Node} : o.graph.get? offset = some node → offset ∉ o.inlined →
      o.expression .empty node = .error fault → Fails o offset fault

theorem fails_of_statements {offsets : List UInt32} {fault : Fault}
    (h : o.statements offsets = .error fault) : ∃ offset ∈ offsets, o.Fails offset fault := by
  induction offsets with
  | nil => cases h
  | cons first rest ih =>
    have hlater : o.statements rest = .error fault →
        ∃ offset ∈ first :: rest, o.Fails offset fault := by
      intro hrest
      obtain ⟨offset, hoffset, hfails⟩ := ih hrest
      exact ⟨offset, List.mem_cons_of_mem _ hoffset, hfails⟩
    rw [Outline.statements] at h
    split at h
    · next hnone =>
      cases h
      exact ⟨first, List.mem_cons_self, .missing hnone rfl⟩
    · next node hnode =>
      split at h
      · exact hlater h
      · next hinlined =>
        rcases bind_eq_error.1 h with hexpression | ⟨_, _, h⟩
        · exact ⟨first, List.mem_cons_self, .expression hnode hinlined hexpression⟩
        · rcases bind_eq_error.1 h with hrest | ⟨_, _, h⟩
          · exact hlater hrest
          · cases h

theorem argument_of_arguments {offset : UInt32} {slot : Nat} {inputs : List Provenance}
    {arguments : List Expression} (h : o.arguments path offset slot inputs = .ok arguments)
    {input : Provenance} (hinput : input ∈ inputs) :
    ∃ site argument, o.argument path site input = .ok argument := by
  induction inputs generalizing slot arguments with
  | nil => cases hinput
  | cons first rest ih =>
    rw [Outline.arguments] at h
    obtain ⟨_, hfirst, h⟩ := bind_eq_ok.1 h
    obtain ⟨_, hothers, h⟩ := bind_eq_ok.1 h
    rcases List.mem_cons.1 hinput with rfl | hinput
    · exact ⟨_, _, hfirst⟩
    · exact ih hothers hinput

theorem get?_of_statements {offsets : List UInt32} {statements : List Statement}
    (h : o.statements offsets = .ok statements) {offset : UInt32} (hoffset : offset ∈ offsets) :
    ∃ node, o.graph.get? offset = some node := by
  induction offsets generalizing statements with
  | nil => cases hoffset
  | cons first rest ih =>
    rw [Outline.statements] at h
    split at h
    · cases h
    · next node hnode =>
      rcases List.mem_cons.1 hoffset with rfl | hoffset
      · exact ⟨node, hnode⟩
      · split at h
        · exact ih h hoffset
        · obtain ⟨_, _, h⟩ := bind_eq_ok.1 h
          obtain ⟨_, hothers, _⟩ := bind_eq_ok.1 h
          exact ih hothers hoffset

end Outline

namespace Graph

variable {graph : Graph} {start offset : UInt32}

/-- An argument of a listed instruction has no producer in the graph. -/
structure Lacks (graph : Graph) (start : UInt32) (node : Node) (slot : Nat) : Prop where
  listed : graph.Listed start node.offset
  found : graph.get? node.offset = some node
  lacking : ∃ input, node.argumentInputs[slot]? = some input ∧ ¬graph.Provides input

/-- A listed instruction takes more arguments than a list can hold. -/
structure Crowded (graph : Graph) (start : UInt32) (node : Node) : Prop where
  listed : graph.Listed start node.offset
  found : graph.get? node.offset = some node
  crowded : ¬Reservable node.argumentCount Expression.byteSize

theorem fault_of_expression {path : OffsetSet} {node : Node} {fault : Fault}
    (hnode : graph.get? node.offset = some node) (henclosed : graph.Enclosed path node.offset)
    (hlisted : graph.Listed start node.offset)
    (h : graph.outline.expression path node = .error fault) :
    (∃ reader slot, graph.Lacks start reader slot ∧
      fault = .unboundDependency reader.offset slot) ∨
    ∃ reader, graph.Crowded start reader ∧ fault = .capacityOverflow := by
  -- Every instruction on the way to a producer takes up some of the room that the path has.
  induction hroom : UInt32.size - path.size using Nat.strongRecOn generalizing path node with
  | ind room ih =>
    rw [Outline.expression, if_neg henclosed.outside] at h
    by_cases hroomy : Reservable node.argumentCount Expression.byteSize
    case neg =>
      rw [reserve_bind_of_not hroomy] at h
      cases h
      exact .inr ⟨node, ⟨hlisted, hnode, hroomy⟩, rfl⟩
    rw [reserve_bind hroomy] at h
    have harguments : graph.outline.arguments (path.insert node.offset) node.offset 0
        node.argumentInputs = .error fault := by
      rcases bind_eq_error.1 h with harguments | ⟨_, _, h⟩
      · exact harguments
      · cases h
    obtain ⟨k, input, hk, hargument⟩ := Outline.error_of_arguments harguments
    by_cases hprovides : graph.Provides input
    · obtain ⟨a, ha, hget⟩ := hprovides
      obtain ⟨producer, hproducer⟩ := contains_iff.1 hget
      obtain rfl := offset_of_get? hproducer
      have hslot : (⟨node, k, input⟩ : Slot) ∈ graph.slots :=
        mem_slots_iff.2 ⟨hnode, Node.inputs_of_argumentInputs hk⟩
      cases hread : graph.outline.naming.variableRead? input with
      | some index =>
        rw [Outline.argument_of_read hread] at hargument
        cases hargument
      | none =>
        rcases read_or_inlined hslot ha hget with ⟨index, hindex⟩ | ⟨hsources, hinlined⟩
        · rw [hread] at hindex
          cases hindex
        · rw [Outline.argument_of_inlined hread hsources hinlined hproducer] at hargument
          have htakes : graph.Takes producer.offset node.offset :=
            ⟨_, inlines_of_read hinlined hslot ha, rfl, hk⟩
          have hlt : UInt32.size - (path.insert node.offset).size < room :=
            hroom ▸ OffsetSet.room_insert_lt henclosed.outside
          exact ih _ hlt hproducer (henclosed.takes htakes) (hlisted.taken htakes) hargument rfl
    · rw [argument_eq_error hprovides] at hargument
      cases hargument
      exact .inl ⟨node, k, ⟨hlisted, hnode, input, hk, hprovides⟩, by rw [Nat.zero_add]⟩

theorem outcome_build_eq_error {fault : Fault} (h : (graph.build start).outcome = .error fault) :
    graph.outline.statements (graph.walk start) = .error fault := by
  rw [build, Traced.outcome_bind] at h
  rcases bind_eq_error.1 h with h | ⟨_, _, h⟩
  · cases h
  · rw [Traced.outcome_bind] at h
    rcases bind_eq_error.1 h with h | ⟨_, _, h⟩
    · change graph.listingFrom start = .error fault at h
      rw [listingFrom_eq] at h
      cases hstatements : graph.outline.statements (graph.walk start) with
      | error _ =>
        rw [hstatements] at h
        cases h
        rfl
      | ok _ =>
        rw [hstatements] at h
        cases h
    · cases h

/-- What a failure to build a listing names. -/
theorem fault_of_build {fault : Fault} (h : (graph.build start).outcome = .error fault) :
    (∃ offset, graph.Leads start offset ∧ graph.contains offset = false ∧
      fault = .missingInstruction offset) ∨
    (∃ reader slot, graph.Lacks start reader slot ∧
      fault = .unboundDependency reader.offset slot) ∨
    ∃ reader, graph.Crowded start reader ∧ fault = .capacityOverflow := by
  obtain ⟨offset, hoffset, hfails⟩ := Outline.fails_of_statements (outcome_build_eq_error h)
  have hleads := mem_walk_iff.1 hoffset
  cases hfails with
  | missing hnone hfault =>
    have hget : graph.get? offset = none := hnone
    exact .inl ⟨offset, hleads, by rw [contains, hget]; rfl, hfault⟩
  | @expression node hnode hinlined hexpression =>
    obtain rfl := offset_of_get? hnode
    have hlisted : graph.Listed start node.offset :=
      .met hleads fun hinlinable => hinlined (mem_inlined_iff_inlinable.2 hinlinable)
    exact .inr (fault_of_expression hnode (enclosed_root hinlined) hlisted hexpression)

theorem Listed.expression (h : graph.Listed start offset) {listing : Listing}
    (hbuild : (graph.build start).outcome = .ok listing) :
    ∃ node path expression, graph.get? offset = some node ∧
      graph.outline.expression path node = .ok expression := by
  induction h with
  | met hleads hinlinable =>
    obtain ⟨node, expression, hnode, hexpression, _⟩ := Outline.exists_statement
      (statements_of_build hbuild) (mem_walk_iff.2 hleads)
      fun hinlined => hinlinable (mem_inlined_iff_inlinable.1 hinlined)
    exact ⟨node, .empty, expression, hnode, hexpression⟩
  | taken _ htakes ih =>
    obtain ⟨node, path, expression, hnode, hexpression⟩ := ih
    obtain ⟨slot, hinlines, rfl, hinput⟩ := htakes
    obtain rfl : node = slot.reader :=
      Option.some.inj (hnode.symm.trans (mem_slots_iff.1 hinlines.mem).1)
    obtain ⟨arguments, harguments, _⟩ := Outline.expression_cases hexpression
    obtain ⟨site, argument, hargument⟩ :=
      Outline.argument_of_arguments harguments (List.mem_of_getElem? hinput)
    have hinlined := (inlinedAt?_eq_some_iff hinlines.mem).2 ⟨hinlines.mem_inlined, hinlines.read⟩
    rcases Outline.argument_cases hargument with ⟨hnone, _⟩ | ⟨producer, hsome, hproducer, hexpr⟩
    · rw [hinlined] at hnone
      cases hnone
    · obtain rfl := Option.some.inj (hinlined.symm.trans hsome)
      exact ⟨producer, _, argument, hproducer, hexpr⟩

theorem not_lacks_of_build {listing : Listing} (hbuild : (graph.build start).outcome = .ok listing)
    {node : Node} {slot : Nat} : ¬graph.Lacks start node slot := by
  rintro ⟨hlisted, hfound, input, hinput, hlacks⟩
  obtain ⟨other, path, expression, hother, hexpression⟩ := hlisted.expression hbuild
  obtain rfl : node = other := Option.some.inj (hfound.symm.trans hother)
  obtain ⟨arguments, harguments, _⟩ := Outline.expression_cases hexpression
  obtain ⟨site, argument, hargument⟩ :=
    Outline.argument_of_arguments harguments (List.mem_of_getElem? hinput)
  rw [argument_eq_error hlacks] at hargument
  cases hargument

theorem not_crowded_of_build {listing : Listing}
    (hbuild : (graph.build start).outcome = .ok listing) {node : Node} :
    ¬graph.Crowded start node := by
  rintro ⟨hlisted, hfound, hcrowded⟩
  obtain ⟨other, path, expression, hother, hexpression⟩ := hlisted.expression hbuild
  obtain rfl : node = other := Option.some.inj (hfound.symm.trans hother)
  exact hcrowded (Outline.reservable_of_expression hexpression)

/-- A graph has a listing from `start` exactly if everything that control flow leads to is in the
graph, no argument of a listed instruction lacks a producer there, and none takes more arguments
than a list can hold. Otherwise the failure names what is missing, an offset or an argument, or is
a panic due to an instruction that takes too many. No failure is due to a cycle, since every chain
of producers that are inlined into what is listed ends. -/
theorem build_eq_ok_iff (graph : Graph) (start : UInt32) :
    ((∃ listing, (graph.build start).outcome = .ok listing) ↔
      (∀ offset, graph.Leads start offset → graph.contains offset = true) ∧
        (∀ node slot, ¬graph.Lacks start node slot) ∧ ∀ node, ¬graph.Crowded start node) ∧
    (∀ fault, (graph.build start).outcome = .error fault →
      (∃ offset, graph.Leads start offset ∧ graph.contains offset = false ∧
        fault = .missingInstruction offset) ∨
      (∃ node slot, graph.Lacks start node slot ∧ fault = .unboundDependency node.offset slot) ∨
      ∃ node, graph.Crowded start node ∧ fault = .capacityOverflow) ∧
    ∀ offset, graph.Listed start offset → Acc graph.Takes offset := by
  refine ⟨⟨?_, ?_⟩, fun _ => fault_of_build, fun _ hlisted => hlisted.acc⟩
  · rintro ⟨listing, hbuild⟩
    refine ⟨fun offset hleads => ?_, fun node slot => not_lacks_of_build hbuild,
      fun node => not_crowded_of_build hbuild⟩
    obtain ⟨node, hnode⟩ :=
      Outline.get?_of_statements (statements_of_build hbuild) (mem_walk_iff.2 hleads)
    exact contains_iff.2 ⟨node, hnode⟩
  · rintro ⟨hcontains, hprovided, hroomy⟩
    cases hbuild : (graph.build start).outcome with
    | ok listing => exact ⟨listing, rfl⟩
    | error fault =>
      rcases fault_of_build hbuild with
        ⟨offset, hleads, hmissing, _⟩ | ⟨node, slot, hlacks, _⟩ | ⟨node, hcrowded, _⟩
      · rw [hcontains offset hleads] at hmissing
        cases hmissing
      · exact absurd hlacks (hprovided node slot)
      · exact absurd hcrowded (hroomy node)

/-- `VCALL; RET`, where the call is known, consumes nothing, and is of a service that takes more
arguments than a list can hold. -/
def overrunning : Graph :=
  .ofList [
    ⟨⟨0, ⟨Code.callService, "VCALL", .next, .variable, .variable, .none, .object⟩, .none, 1⟩,
      .start 0 0, [], .call ⟨9, ⟨"huge", 0x4000000000000000, none⟩⟩⟩,
    ⟨⟨1, ⟨Code.ret, "RET", .leave, .none, .none, .none, .object⟩, .none, 1⟩,
      .start 1 0, [], .nothing⟩]

theorem overrunning_build_panics :
    (∀ offset, overrunning.Leads 0 offset → overrunning.contains offset = true) ∧
      (∀ node slot, ¬overrunning.Lacks 0 node slot) ∧
      (overrunning.build 0).outcome = .error .capacityOverflow := by
  have hwalk : (overrunning.walk 0).all overrunning.contains = true := by cbv
  have hinputs : ∀ node ∈ overrunning.nodes, node.inputs = [] := by decide
  refine ⟨fun offset hleads => List.all_eq_true.1 hwalk offset (mem_walk_iff.2 hleads), ?_, ?_⟩
  · rintro node slot ⟨_, hfound, input, hinput, _⟩
    have hslot := Node.inputs_of_argumentInputs hinput
    rw [hinputs node (mem_nodes_iff.2 hfound)] at hslot
    cases hslot
  · cbv

end Graph

end StackLift
