import StackLift.Proofs.Names

namespace StackLift

namespace Site

theorem before_iff {a b : Site} :
    a.before b = true ↔ a.offset < b.offset ∨ a.offset = b.offset ∧ a.slot < b.slot := by
  simp [before]

theorem not_before_self (a : Site) : a.before a = false := by
  rw [Bool.eq_false_iff, Ne, before_iff]
  rintro (hlt | ⟨_, hlt⟩)
  · exact UInt32.lt_irrefl _ hlt
  · exact Nat.lt_irrefl _ hlt

theorem not_before_of_before {a b : Site} (h : a.before b = true) : b.before a = false := by
  rw [Bool.eq_false_iff, Ne, before_iff]
  rcases before_iff.1 h with hlt | ⟨heq, hlt⟩
  · rintro (hgt | ⟨heq, _⟩)
    · exact UInt32.lt_asymm hlt hgt
    · exact UInt32.ne_of_lt hlt heq.symm
  · rintro (hgt | ⟨_, hgt⟩)
    · exact UInt32.ne_of_lt hgt heq.symm
    · exact Nat.lt_asymm hlt hgt

end Site

namespace Slot

def site (slot : Slot) : Site :=
  ⟨slot.reader.offset, slot.index⟩

theorem site_eq_of_variableName_eq {s t : Slot} (h : s.variableName = t.variableName) :
    s.site = t.site := by
  obtain ⟨hoffset, hindex⟩ := eq_of_variableName_eq h
  rw [site, site, hoffset, hindex]

end Slot

namespace Graph

variable {graph : Graph}

theorem offset_of_mem_entries {entry : UInt32 × Node} (h : entry ∈ graph.byOffset.entries) :
    entry.2.offset = entry.1 :=
  graph.offset_eq entry.1 entry.2 (OffsetMap.get?_eq_some_iff.2 h)

theorem mem_nodes_iff {node : Node} :
    node ∈ graph.nodes ↔ graph.get? node.offset = some node := by
  rw [nodes, OffsetMap.values, List.mem_map]
  constructor
  · rintro ⟨entry, hentry, rfl⟩
    rw [offset_of_mem_entries hentry]
    exact OffsetMap.get?_eq_some_iff.2 hentry
  · intro hget
    exact ⟨(node.offset, node), OffsetMap.get?_eq_some_iff.1 hget, rfl⟩

theorem mem_slots_iff {slot : Slot} :
    slot ∈ graph.slots ↔ graph.get? slot.reader.offset = some slot.reader ∧
      slot.reader.inputs[slot.index]? = some slot.input := by
  rw [slots, List.mem_flatMap]
  constructor
  · rintro ⟨node, hnode, hslot⟩
    obtain ⟨index, hindex, rfl⟩ := List.mem_mapIdx.1 hslot
    exact ⟨mem_nodes_iff.1 hnode, List.getElem?_eq_getElem hindex⟩
  · rintro ⟨hget, hinput⟩
    obtain ⟨hindex, hinput⟩ := List.getElem?_eq_some_iff.1 hinput
    refine ⟨slot.reader, mem_nodes_iff.2 hget, List.mem_mapIdx.2 ⟨slot.index, hindex, ?_⟩⟩
    rw [hinput]

theorem mem_readsOf {slots : List Slot} {slot : Slot} {producer : UInt32} :
    slot ∈ readsOf slots producer ↔ slot ∈ slots ∧ producer ∈ slot.input.sources := by
  rw [readsOf, List.mem_filter, decide_eq_true_eq]

theorem pairwise_nodes (graph : Graph) : graph.nodes.Pairwise fun m n => m.offset < n.offset := by
  have hkeys := graph.byOffset.ascending
  rw [nodes, OffsetMap.values, List.pairwise_map]
  refine List.Pairwise.imp_of_mem ?_ hkeys
  intro x y hx hy hlt
  rw [offset_of_mem_entries hx, offset_of_mem_entries hy]
  exact hlt

theorem pairwise_slots (graph : Graph) : graph.slots.Pairwise fun s t => s.site.before t.site := by
  rw [slots, List.pairwise_flatMap]
  constructor
  · intro node _
    rw [List.pairwise_iff_getElem]
    intro i j hi hj hij
    simp only [List.getElem_mapIdx]
    exact Site.before_iff.2 (.inr ⟨rfl, hij⟩)
  · refine graph.pairwise_nodes.imp ?_
    intro m n hlt s hs t ht
    obtain ⟨i, _, rfl⟩ := List.mem_mapIdx.1 hs
    obtain ⟨j, _, rfl⟩ := List.mem_mapIdx.1 ht
    exact Site.before_iff.2 (.inl hlt)

theorem nodup_variableNames (graph : Graph) : (graph.slots.map Slot.variableName).Nodup := by
  rw [List.Nodup, List.pairwise_map]
  refine graph.pairwise_slots.imp ?_
  intro s t hbefore heq
  rw [Slot.site_eq_of_variableName_eq heq, Site.not_before_self] at hbefore
  cases hbefore

theorem mem_offsets_iff {p : Node → List Slot → Bool} {offset : UInt32} :
    offset ∈ OffsetSet.ofList ((graph.nodes.filter fun node =>
      p node (readsOf graph.slots node.offset)).map fun node => node.offset) ↔
    ∃ node, graph.get? offset = some node ∧ p node (readsOf graph.slots offset) = true := by
  simp only [OffsetSet.mem_ofList, List.mem_map, List.mem_filter]
  constructor
  · rintro ⟨node, ⟨hnode, hp⟩, rfl⟩
    exact ⟨node, mem_nodes_iff.1 hnode, hp⟩
  · rintro ⟨node, hget, hp⟩
    have hoffset : node.offset = offset := offset_of_get? hget
    refine ⟨node, ⟨mem_nodes_iff.2 ?_, ?_⟩, hoffset⟩
    · rw [hoffset, hget]
    · rw [hoffset]
      exact hp

theorem mem_stored_iff {offset : UInt32} :
    offset ∈ graph.placement.stored ↔ ∃ node, graph.get? offset = some node ∧
      node.mustStore (readsOf graph.slots offset) = true :=
  mem_offsets_iff (p := Node.mustStore)

theorem mem_inlined_iff {offset : UInt32} :
    offset ∈ graph.placement.inlined ↔ ∃ node, graph.get? offset = some node ∧
      node.isInlined (readsOf graph.slots offset) = true :=
  mem_offsets_iff (p := Node.isInlined)

theorem not_mem_inlined_of_stored {offset : UInt32} (h : offset ∈ graph.placement.stored) :
    offset ∉ graph.placement.inlined := by
  intro hinlined
  obtain ⟨node, hnode, hstore⟩ := mem_stored_iff.1 h
  obtain ⟨other, hother, hinline⟩ := mem_inlined_iff.1 hinlined
  rw [hnode] at hother
  cases hother
  simp [Node.isInlined, hstore] at hinline

theorem mem_stored_of_meet {slot : Slot} (hslot : slot ∈ graph.slots) {a b : UInt32}
    (ha : a ∈ slot.input.sources) (hb : b ∈ slot.input.sources) (hne : a ≠ b)
    (hget : (graph.get? a).isSome) : a ∈ graph.placement.stored := by
  obtain ⟨node, hnode⟩ := Option.isSome_iff_exists.1 hget
  have hjoined : slot.joined = true := by
    rw [Slot.joined, decide_eq_true_eq, OffsetSet.size]
    by_contra hsize
    obtain ⟨source, hsource⟩ := List.length_eq_one_iff.1
      (Nat.le_antisymm (Nat.le_of_not_lt hsize) (List.length_pos_of_mem ha))
    rw [← OffsetSet.mem_toList, hsource, List.mem_singleton] at ha hb
    exact hne (ha.trans hb.symm)
  rw [mem_stored_iff]
  refine ⟨node, hnode, ?_⟩
  have hany : (readsOf graph.slots a).any
      (fun slot => slot.registerBound || slot.joined) = true := by
    rw [List.any_eq_true]
    exact ⟨slot, mem_readsOf.2 ⟨hslot, ha⟩, by rw [hjoined, Bool.or_true]⟩
  rw [Node.mustStore, hany, Bool.or_true]

end Graph

end StackLift
