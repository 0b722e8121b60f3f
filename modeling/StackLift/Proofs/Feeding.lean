import StackLift.Proofs.Grounded
import StackLift.Proofs.Selectors

namespace StackLift

/-- The kind of what a push of fixed arity produces: the instruction pointer is a dword. -/
def Instruction.pushedKind (i : Instruction) : ValueKind :=
  if i.operand = .register .ip then .dword else i.opcode.kind

def Provenance.Stems (v : Provenance) (Q : UInt32 → ValueKind → Prop) : Prop :=
  ∀ a ∈ v.sources, Q a v.kind

namespace Provenance

variable {Q Q' : UInt32 → ValueKind → Prop} {v w : Provenance}

theorem stems_entry (kind : ValueKind) : (entry kind).Stems Q :=
  fun a ha => absurd ha (OffsetSet.not_mem_empty a)

theorem stems_producedBy {offset : UInt32} {kind : ValueKind} (h : Q offset kind) :
    (producedBy offset kind).Stems Q := by
  intro a ha
  cases OffsetSet.mem_singleton.1 ha
  exact h

theorem Stems.mono (h : v.Stems Q) (hQ : ∀ a kind, Q a kind → Q' a kind) : v.Stems Q' :=
  fun a ha => hQ a _ (h a ha)

theorem Stems.merge (hwiden : ∀ a kind, Q a kind → Q a .object) (hv : v.Stems Q) (hw : w.Stems Q) :
    (v.merge w).Stems Q := by
  intro a ha
  change Q a (v.kind.join w.kind)
  rcases mem_sources_merge.1 ha with ha | ha
  · rcases v.kind.join_eq_self_or w.kind with hkind | hkind
    · rw [hkind]
      exact hv a ha
    · rw [hkind]
      exact hwiden a _ (hv a ha)
  · rw [ValueKind.join_comm]
    rcases w.kind.join_eq_self_or v.kind with hkind | hkind
    · rw [hkind]
      exact hw a ha
    · rw [hkind]
      exact hwiden a _ (hw a ha)

end Provenance

theorem Pushes.ne_none_of_kind? {pushes : Pushes} {own kind : ValueKind} {s : Option Signature}
    (h : pushes.kind? own s = some (some kind)) : pushes ≠ .none := by
  rintro rfl
  cases h

theorem Pushes.eq_of_kind? {own kind : ValueKind} {s : Option Signature} :
    ∀ {pushes : Pushes}, pushes.kind? own s = some (some kind) → pushes ≠ .variable → kind = own
  | .none, h, _ => (nomatch h)
  | .one, h, _ => (Option.some.inj (Option.some.inj h)).symm
  | .variable, _, hfixed => absurd rfl hfixed

theorem Frame.All.effect {R : Provenance → Prop} {f : Frame} {i : Instruction}
    {s : Option Signature} {e : Effect} (h : f.All R)
    (hfilled : ∀ v ∈ f.stack, v.isEntry = false)
    (hself : ∀ kind, i.opcode.pushes.kind? i.opcode.kind s = some (some kind) →
      R (.producedBy i.offset (if i.operand = .register .ip then .dword else kind)))
    (he : f.effect i s = .ok e) : e.frame.All R := by
  obtain ⟨count, pushed, _, hkind, _, rfl⟩ := Frame.effect_cases he
  have hbehind := h.behindPops i count
  cases pushed with
  | none => exact hbehind
  | some kind =>
    refine ⟨?_, hbehind.registers⟩
    intro v hv
    rcases List.mem_cons.1 hv with rfl | hv
    · rcases Frame.pushed_behindPops hfilled i count kind with hcell | ⟨r, hr, _, heq⟩ | heq
      · exact h.stack _ hcell
      · rw [heq]
        exact h.registers r hr
      · rw [heq]
        exact hself kind hkind
    · exact hbehind.stack v hv

namespace Graph

variable {graph next : Graph} {reader t a : UInt32} {kind : ValueKind} {producer : Node}

structure Feeds (graph : Graph) (producer : Node) (reader : UInt32) (kind : ValueKind) : Prop where
  pushes : producer.opcode.pushes ≠ .none
  leads : Relation.TransGen (fun a b => b ∈ graph.successors a) producer.offset reader
  kind : kind ≠ .object → producer.opcode.variableArity = false → kind = producer.pushedKind

/-- A push stands at the offset whose value may be read at `reader` with the given kind. -/
def FedFrom (graph : Graph) (reader a : UInt32) (kind : ValueKind) : Prop :=
  ∃ producer, graph.get? a = some producer ∧ graph.Feeds producer reader kind

theorem FedFrom.widen (h : graph.FedFrom reader a kind) : graph.FedFrom reader a .object := by
  obtain ⟨producer, hproducer, hfeeds⟩ := h
  exact ⟨producer, hproducer, hfeeds.pushes, hfeeds.leads, fun hne => absurd rfl hne⟩

theorem FedFrom.tail (h : graph.FedFrom reader a kind) (ht : t ∈ graph.successors reader) :
    graph.FedFrom t a kind := by
  obtain ⟨producer, hproducer, hfeeds⟩ := h
  exact ⟨producer, hproducer, hfeeds.pushes, hfeeds.leads.tail ht, hfeeds.kind⟩

theorem FedFrom.mono (h : graph.FedFrom reader a kind) (hext : next.Extends graph)
    (hsuccessors : ∀ b t, t ∈ graph.successors b → t ∈ next.successors b) :
    next.FedFrom reader a kind := by
  obtain ⟨old, hold, hfeeds⟩ := h
  obtain ⟨producer, hproducer, hgrown⟩ := hext a old hold
  refine ⟨producer, hproducer, ?_, ?_, ?_⟩
  · rw [hgrown.instruction]
    exact hfeeds.pushes
  · rw [hgrown.instruction]
    exact Relation.TransGen.mono hsuccessors _ _ hfeeds.leads
  · rw [hgrown.instruction]
    exact hfeeds.kind

structure Fed (graph : Graph) (agenda : List Frame) : Prop where
  nodes : ∀ offset node, graph.get? offset = some node →
    node.frame.All fun v => v.Stems (graph.FedFrom offset)
  waiting : ∀ f ∈ agenda, f.All fun v => v.Stems (graph.FedFrom f.ip)

theorem Fed.enter (h : graph.Fed []) (ip key : UInt32) : graph.Fed [.start ip key] := by
  refine ⟨h.nodes, ?_⟩
  intro f hf
  rw [List.mem_singleton.1 hf]
  exact Frame.all_start ip key (Provenance.stems_entry _)

end Graph

namespace Discovery

variable {d : Discovery} {exports : List Export} {graph next : Graph} {frame : Frame}
  {frames rest : List Frame} {node known : Node} {call : Option Call} {e : Effect} {s : Search}

theorem Arrives.fed (h : d.Arrives graph frame node) (hfed : graph.Fed (frame :: rest)) :
    node.frame.All fun v => v.Stems (graph.FedFrom frame.ip) := by
  have hframe := hfed.waiting frame List.mem_cons_self
  cases h with
  | found _ hdecode =>
    rw [(decode_cases hdecode).2.1]
    exact hframe
  | grown hget hmerge =>
    exact (hfed.nodes _ _ hget).merge hframe
      (fun _ _ hv hw => hv.merge (fun _ _ => Graph.FedFrom.widen) hw) hmerge

/-- An instruction hands on values that are fed at its successors. -/
theorem Followed.fed (h : d.Followed graph node known call e)
    (hself : next.get? node.offset = some known) {t : UInt32} (ht : t ∈ known.successors)
    (hfilled : ∀ v ∈ node.frame.stack, v.isEntry = false)
    (hframe : node.frame.All fun v => v.Stems (next.FedFrom node.offset)) :
    e.frame.All fun v => v.Stems (next.FedFrom t) := by
  have hsuccessor : t ∈ next.successors node.offset := Graph.mem_successors_iff.2 ⟨known, hself, ht⟩
  have hbehind : node.frame.All fun v => v.Stems (next.FedFrom t) :=
    hframe.mono fun v hv => hv.mono fun a kind hfed => hfed.tail hsuccessor
  apply hbehind.effect hfilled ?_ h.effect
  intro kind hkind
  apply Provenance.stems_producedBy
  refine ⟨known, hself, ?_, ?_, ?_⟩
  · rw [h.toInstruction_eq]
    exact Pushes.ne_none_of_kind? hkind
  · rw [h.toInstruction_eq]
    exact .single hsuccessor
  · rw [h.toInstruction_eq]
    intro _ harity
    rw [Instruction.pushedKind,
      Pushes.eq_of_kind? hkind (Opcode.variableArity_eq_false_iff.1 harity).2]

theorem visit_fed (hisa : d.isa.CallsReturn) (hp : d.Passes exports ⟨graph, frame :: rest⟩)
    (hfed : graph.Fed (frame :: rest)) (h : (d.visit graph frame).outcome = .ok (next, frames)) :
    next.Fed (frames ++ rest) := by
  have hext := visit_extends h hp.recorded
  have hsuccessors : ∀ b t, t ∈ graph.successors b → t ∈ next.successors b :=
    fun b t ht => hext.mem_successors hisa (hp.drawnFrom hisa) ht
  have hmono : ∀ {reader} {v : Provenance}, v.Stems (graph.FedFrom reader) →
      v.Stems (next.FedFrom reader) :=
    fun hv => hv.mono fun _ _ hfed => hfed.mono hext hsuccessors
  have hrest : ∀ f ∈ rest, f.All fun v => v.Stems (next.FedFrom f.ip) :=
    fun f hf => (hfed.waiting f (List.mem_cons_of_mem _ hf)).mono fun _ => hmono
  have hold : ∀ offset old, graph.get? offset = some old →
      old.frame.All fun v => v.Stems (next.FedFrom offset) :=
    fun offset old hold => (hfed.nodes offset old hold).mono fun _ => hmono
  rcases visit_followed h with
    ⟨_, rfl, rfl⟩ | ⟨node, known, call, e, harrives, hknown, hget, hframes⟩
  · exact ⟨hold, hrest⟩
  · have hframe := (harrives.fed hfed).mono fun _ => hmono
    have hgrounded := harrives.grounded hp.grounded.nodes
      (hp.grounded.waiting frame List.mem_cons_self)
    have hfilled : ∀ v ∈ node.frame.stack, v.isEntry = false :=
      fun v hv => (hgrounded.frame.stack v hv).filled
    have hself := (harrives.get?_next hget).1
    constructor
    · intro offset other hother
      rw [hget] at hother
      split at hother
      · next heq =>
        cases hother
        rw [heq, hknown.frame_eq]
        exact hframe
      · exact hold offset other hother
    · intro f hf
      rcases List.mem_append.1 hf with hf | hf
      · rw [hframes] at hf
        obtain ⟨t, ht, rfl⟩ := List.mem_map.1 hf
        rw [← harrives.offset_eq] at hframe
        exact (hknown.fed hself (List.mem_reverse.1 ht) hfilled hframe).moveTo t
      · exact hrest f hf

theorem Passes.fed (hisa : d.isa.CallsReturn) (h : d.Passes exports s) :
    s.graph.Fed s.agenda := by
  induction h with
  | start => exact ⟨fun _ _ hnode => (nomatch hnode), fun _ hf => (nomatch hf)⟩
  | enter _ _ ih => exact ih.enter _ _
  | visit hp hvisit ih => exact visit_fed hisa hp ih hvisit

/-- Every slot has a source, and every source is a push from which control leads to the reader. It
pushes the kind of the slot, unless that is known as an object only or a service decides what is
pushed. -/
theorem discover_feeds (hisa : d.isa.CallsReturn) (h : (d.discover exports).outcome = .ok graph)
    {slot : Slot} (hslot : slot ∈ graph.slots) :
    (∃ a, a ∈ slot.input.sources) ∧ ∀ a ∈ slot.input.sources, ∃ producer,
      graph.get? a = some producer ∧
        graph.Feeds producer slot.reader.offset slot.input.kind := by
  have hp := passes_of_discover h
  obtain ⟨hreader, hinput⟩ := Graph.mem_slots_iff.1 hslot
  have hmem : slot.input ∈ slot.reader.frame.stack :=
    (hp.inputsOnTop _ _ hreader).mem_stack (List.mem_of_getElem? hinput)
  have hgrounded := (hp.grounded.nodes _ _ hreader).frame.stack _ hmem
  exact ⟨Provenance.exists_mem_of_isEntry hgrounded.filled,
    ((hp.fed hisa).nodes _ _ hreader).stack _ hmem⟩

/-- The selector of the `VCALL` is pushed at 16 or at 27. -/
theorem choosing_feeds :
    choosing.isa.CallsReturn ∧ ∃ graph slot, (choosing.discover [⟨0, 0⟩]).outcome = .ok graph ∧
      slot ∈ graph.slots ∧ slot.reader.offset = 32 ∧ slot.input.kind = .dword ∧
      slot.input.sources.toList = [16, 27] ∧
      (∃ a, a ∈ slot.input.sources) ∧ ∀ a ∈ slot.input.sources, ∃ producer,
        graph.get? a = some producer ∧
          graph.Feeds producer slot.reader.offset slot.input.kind := by
  have hisa : choosing.isa.CallsReturn := InstructionSet.reference_callsReturn
  have hrun : (choosing.discoverWithin 40 [⟨0, 0⟩]).map (fun outcome => outcome.map fun graph => do
      let node ← graph.get? 32
      let input ← node.inputs[1]?
      return (node.offset, input.kind, input.sources.toList)) =
      some (.ok (some (32, .dword, ([16, 27] : List UInt32)))) := by cbv
  obtain ⟨graph, hgraph, hfacts⟩ := exists_discovered _ hrun
  simp only [Option.bind_eq_bind, Option.bind_eq_some_iff, Option.pure_def, Option.some.injEq,
    Prod.mk.injEq] at hfacts
  obtain ⟨node, hnode, input, hinput, hoffset, hkind, hsources⟩ := hfacts
  have hslot : (⟨node, 1, input⟩ : Slot) ∈ graph.slots :=
    Graph.mem_slots_iff.2 ⟨by rw [hoffset, hnode], hinput⟩
  exact ⟨hisa, graph, _, hgraph, hslot, hoffset, hkind, hsources, discover_feeds hisa hgraph hslot⟩

end Discovery

end StackLift
