import StackLift.Proofs.Grounded
import StackLift.Proofs.Growth

namespace StackLift

namespace Graph

/-- A path of recorded successors leads from an export to the offset. -/
def Reaches (graph : Graph) (exports : List Export) (offset : UInt32) : Prop :=
  ∃ entry ∈ exports, ∃ earlier, graph.Path entry.offset (offset :: earlier)

variable {graph next : Graph} {isa : InstructionSet} {exports : List Export} {key offset : UInt32}

theorem mem_offsets_iff_contains : offset ∈ graph.offsets ↔ graph.contains offset = true := by
  rw [offsets, OffsetMap.keys, List.mem_map, contains_iff]
  constructor
  · rintro ⟨entry, hentry, rfl⟩
    exact ⟨entry.2, OffsetMap.get?_eq_some_iff.2 hentry⟩
  · rintro ⟨node, hnode⟩
    exact ⟨(offset, node), OffsetMap.get?_eq_some_iff.1 hnode, rfl⟩

theorem Reaches.step (h : graph.Reaches exports offset) {t : UInt32}
    (ht : t ∈ graph.successors offset) : graph.Reaches exports t := by
  obtain ⟨entry, hentry, earlier, hpath⟩ := h
  exact ⟨entry, hentry, offset :: earlier, hpath.step ht⟩

theorem Reaches.mono (h : graph.Reaches exports offset)
    (hsuccessors : ∀ offset t, t ∈ graph.successors offset → t ∈ next.successors offset) :
    next.Reaches exports offset := by
  obtain ⟨entry, hentry, earlier, hpath⟩ := h
  exact ⟨entry, hentry, earlier, hpath.mono hsuccessors⟩

/-- The key is that of an export. Unless calls transfer control too, that export reaches the
offset. -/
def Owned (graph : Graph) (isa : InstructionSet) (exports : List Export) (key offset : UInt32) :
    Prop :=
  ∃ entry ∈ exports, entry.key = key ∧ (isa.CallsReturn → graph.Reaches [entry] offset)

theorem owned_export (graph : Graph) (isa : InstructionSet) {entry : Export}
    (h : entry ∈ exports) : graph.Owned isa exports entry.key entry.offset :=
  ⟨entry, h, rfl, fun _ => ⟨entry, List.mem_cons_self, [], .start⟩⟩

theorem Owned.step (h : graph.Owned isa exports key offset) {t : UInt32}
    (ht : t ∈ graph.successors offset) : graph.Owned isa exports key t := by
  obtain ⟨entry, hentry, hkey, hreaches⟩ := h
  exact ⟨entry, hentry, hkey, fun hisa => (hreaches hisa).step ht⟩

theorem Owned.mono (h : graph.Owned isa exports key offset)
    (hsuccessors : isa.CallsReturn → ∀ offset t, t ∈ graph.successors offset →
      t ∈ next.successors offset) : next.Owned isa exports key offset := by
  obtain ⟨entry, hentry, hkey, hreaches⟩ := h
  exact ⟨entry, hentry, hkey, fun hisa => (hreaches hisa).mono (hsuccessors hisa)⟩

theorem Owned.reaches (h : graph.Owned isa exports key offset) (hisa : isa.CallsReturn) :
    graph.Reaches exports offset := by
  obtain ⟨entry, hentry, _, hreaches⟩ := h
  obtain ⟨start, hstart, earlier, hpath⟩ := hreaches hisa
  rw [List.mem_singleton.1 hstart] at hpath
  exact ⟨entry, hentry, earlier, hpath⟩

theorem Grounded.contains_of_path (h : graph.Grounded []) {start : UInt32}
    (hstart : graph.contains start = true) {path : List UInt32} (hpath : graph.Path start path) :
    ∀ offset ∈ path, graph.contains offset = true := by
  induction hpath with
  | start =>
    intro offset hoffset
    rwa [List.mem_singleton.1 hoffset]
  | @step t last earlier _ ht ih =>
    intro offset hoffset
    rcases List.mem_cons.1 hoffset with rfl | hoffset
    · exact h.contains_successor ht
    · exact ih offset hoffset

end Graph

namespace Discovery

variable {d : Discovery} {exports : List Export} {graph next : Graph} {frame : Frame}
  {frames rest : List Frame} {node : Node} {s : Search}

theorem Arrives.key_eq (h : d.Arrives graph frame node) :
    node.frame.key = frame.key ∨
      ∃ old, graph.get? frame.ip = some old ∧ node.frame.key = old.frame.key := by
  cases h with
  | found _ hdecode =>
    rw [(decode_cases hdecode).2.1]
    exact .inl rfl
  | grown hget hmerge => exact .inr ⟨_, hget, (Frame.place_of_merge hmerge).2⟩

structure Keyed (d : Discovery) (exports : List Export) (s : Search) : Prop where
  nodes : ∀ offset node, s.graph.get? offset = some node →
    s.graph.Owned d.isa exports node.frame.key offset
  waiting : ∀ f ∈ s.agenda, s.graph.Owned d.isa exports f.key f.ip

theorem visit_keyed (hp : d.Passes exports ⟨graph, frame :: rest⟩)
    (hkeyed : d.Keyed exports ⟨graph, frame :: rest⟩)
    (h : (d.visit graph frame).outcome = .ok (next, frames)) :
    d.Keyed exports ⟨next, frames ++ rest⟩ := by
  have hmono : ∀ {key offset}, graph.Owned d.isa exports key offset →
      next.Owned d.isa exports key offset :=
    fun howned => howned.mono fun hisa _ _ =>
      (visit_extends h hp.recorded).mem_successors hisa (hp.drawnFrom hisa)
  rcases visit_followed h with
    ⟨_, rfl, rfl⟩ | ⟨node, known, _, e, harrives, hknown, hget, hframes⟩
  · exact ⟨hkeyed.nodes, fun f hf => hkeyed.waiting f (List.mem_cons_of_mem _ hf)⟩
  · have hself : next.Owned d.isa exports node.frame.key frame.ip := by
      rcases harrives.key_eq with hkey | ⟨old, hold, hkey⟩
      · rw [hkey]
        exact hmono (hkeyed.waiting frame List.mem_cons_self)
      · rw [hkey]
        exact hmono (hkeyed.nodes _ old hold)
    constructor
    · intro offset other hother
      have hnext := hget offset
      rw [hother] at hnext
      split at hnext
      · next hoffset =>
        cases hnext
        rw [hknown.frame_eq, hoffset]
        exact hself
      · exact hmono (hkeyed.nodes offset other hnext.symm)
    · intro f hf
      rcases List.mem_append.1 hf with hf | hf
      · rw [hframes] at hf
        obtain ⟨t, ht, rfl⟩ := List.mem_map.1 hf
        have hkey : (e.frame.moveTo t).key = node.frame.key := Frame.key_effect hknown.effect
        rw [hkey]
        apply hself.step
        exact Graph.mem_successors_iff.2 ⟨known, by rw [hget, if_pos rfl], List.mem_reverse.1 ht⟩
      · exact hmono (hkeyed.waiting f (List.mem_cons_of_mem _ hf))

theorem Passes.keyed (h : d.Passes exports s) : d.Keyed exports s := by
  induction h with
  | start => exact ⟨fun _ _ hnode => (nomatch hnode), fun _ hf => (nomatch hf)⟩
  | @enter graph entry _ hentry ih =>
    refine ⟨ih.nodes, ?_⟩
    intro f hf
    rw [List.mem_singleton.1 hf]
    exact Graph.owned_export _ _ hentry
  | visit hp hvisit ih => exact visit_keyed hp ih hvisit

def Found (exports : List Export) (s : Search) : Prop :=
  (∀ offset, s.graph.contains offset = true → s.graph.Reaches exports offset) ∧
    ∀ f ∈ s.agenda, s.graph.Reaches exports f.ip

theorem Passes.found (hisa : d.isa.CallsReturn) (h : d.Passes exports s) : Found exports s := by
  constructor
  · intro offset hoffset
    obtain ⟨node, hnode⟩ := Graph.contains_iff.1 hoffset
    exact (h.keyed.nodes offset node hnode).reaches hisa
  · exact fun f hf => (h.keyed.waiting f hf).reaches hisa

/-- The offsets of a discovered graph are those that its recorded successors lead to from the
exports. -/
theorem mem_offsets_iff_reaches (hisa : d.isa.CallsReturn)
    (h : (d.discover exports).outcome = .ok graph) (offset : UInt32) :
    offset ∈ graph.offsets ↔ graph.Reaches exports offset := by
  have hp := passes_of_discover h
  rw [Graph.mem_offsets_iff_contains]
  constructor
  · exact (hp.found hisa).1 offset
  · rintro ⟨entry, hentry, earlier, hpath⟩
    obtain ⟨node, hnode, _⟩ := discover_covers hisa h entry hentry
    have hstart : graph.contains entry.offset = true := Graph.contains_iff.2 ⟨node, hnode⟩
    exact hp.grounded.contains_of_path hstart hpath offset List.mem_cons_self

/-- `PUSHI_DWORD 10; PUSHI_DWORD 3; ADD_DWORD; JMP; NOP; RET`, which jumps over the `NOP` at 12. -/
def skipping : Discovery :=
  ⟨(maskBytes 7 0 [0x04, 10, 0, 0, 0, 0x04, 3, 0, 0, 0, 0x10, 0x30, 0x00, 0x34]).toArray,
    .reference, .ofPresets []⟩

theorem skipping_mem_offsets_iff_reaches :
    skipping.isa.CallsReturn ∧ ∃ graph, (skipping.discover [⟨0, 7⟩]).outcome = .ok graph ∧
      ∀ offset, offset ∈ [0, 5, 10, 11, 13] ↔ graph.Reaches [⟨0, 7⟩] offset := by
  have hisa : skipping.isa.CallsReturn := InstructionSet.reference_callsReturn
  have hrun : (skipping.discoverWithin 40 [⟨0, 7⟩]).map (fun outcome => outcome.map
      Graph.offsets) = some (.ok [0, 5, 10, 11, 13]) := by cbv
  obtain ⟨graph, hgraph, hoffsets⟩ := exists_discovered _ hrun
  refine ⟨hisa, graph, hgraph, ?_⟩
  rw [← hoffsets]
  exact mem_offsets_iff_reaches hisa hgraph

end Discovery

end StackLift
