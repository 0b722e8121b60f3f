import StackLift.Proofs.Reachable
import StackLift.Proofs.Reading

namespace StackLift

theorem byteMask_eq_iff {key other position : UInt32} :
    byteMask key position = byteMask other position ↔ foldBytes key = foldBytes other := by
  rw [byteMask_eq, byteMask_eq other, UInt8.xor_left_inj]

namespace Image

variable {image : Image} {isa : InstructionSet} {key other : UInt32} {position : Nat}
  {bytes : List UInt8} {i : Instruction}

theorem plainByte?_rekey (hfold : foldBytes other = foldBytes key) :
    image.plainByte? other position = image.plainByte? key position := by
  rw [plainByte?, plainByte?, byteMask_eq_iff.2 hfold]

theorem foldBytes_of_plainByte? {byte : UInt8} (h : image.plainByte? key position = some byte)
    (hother : image.plainByte? other position = some byte) : foldBytes other = foldBytes key := by
  obtain ⟨masked, hmasked, rfl⟩ := Option.map_eq_some_iff.1 h
  rw [plainByte?, hmasked, Option.map_some, Option.some.injEq, UInt8.xor_right_inj] at hother
  exact byteMask_eq_iff.1 hother

theorem Spells.rekey (h : image.Spells key position bytes)
    (hfold : foldBytes other = foldBytes key) : image.Spells other position bytes := by
  induction bytes generalizing position with
  | nil => trivial
  | cons byte rest ih => exact ⟨(plainByte?_rekey hfold).trans h.1, ih h.2⟩

/-- An instruction stands in a code under all keys that fold to the same byte, or under none of
them: its code alone tells what they fold to. -/
theorem Stands.rekey_iff (h : image.Stands isa key position i) :
    image.Stands isa other position i ↔ foldBytes other = foldBytes key := by
  obtain ⟨code, bytes, hopcode, hlength, hspells, hoperand⟩ := decode_eq_ok_iff.1 h.decode
  constructor
  · intro hother
    obtain ⟨code', _, hopcode', _, hspells', _⟩ := decode_eq_ok_iff.1 hother.decode
    have hcode := InstructionSet.code_of_opcode? hopcode
    have hcode' := InstructionSet.code_of_opcode? hopcode'
    obtain rfl : code' = code := hcode'.symm.trans hcode
    exact foldBytes_of_plainByte? hspells.1 hspells'.1
  · intro hfold
    exact ⟨h.offset, decode_eq_ok_iff.2 ⟨code, bytes, hopcode, hlength, hspells.rekey hfold,
      hoperand⟩, h.size⟩

end Image

namespace Discovery

variable {d : Discovery} {exports rest : List Export} {graph : Graph} {s : Search}

theorem Stage.leads (h : d.Stage exports rest s) :
    ∀ entry ∈ exports, entry ∈ rest ∨ s.graph.contains entry.offset = true ∨
      ∃ f ∈ s.agenda, f.ip = entry.offset := by
  induction h with
  | start => exact fun entry hentry => .inl hentry
  | @enter entered rest graph _ ih =>
    intro entry hentry
    rcases ih entry hentry with hrest | hcontains | ⟨f, hf, _⟩
    · rcases List.mem_cons.1 hrest with rfl | hrest
      · exact .inr (.inr ⟨_, List.mem_cons_self, rfl⟩)
      · exact .inl hrest
    · exact .inr (.inl hcontains)
    · cases hf
  | visit _ hvisit ih =>
    intro entry hentry
    rcases ih entry hentry with hrest | hleads
    · exact .inl hrest
    · exact .inr (visit_leads hvisit hleads)

theorem contains_export (h : (d.discover exports).outcome = .ok graph) {entry : Export}
    (hentry : entry ∈ exports) : graph.contains entry.offset = true := by
  rcases (stage_of_discover h).leads entry hentry with hrest | hcontains | ⟨f, hf, _⟩
  · cases hrest
  · exact hcontains
  · cases hf

/-- What an export reaches is recorded, under the key of an export that reaches it too. The
instruction that is recorded is the one that decodes there under the key of the export if and only
if this key and the one it is recorded under fold to the same byte. -/
theorem stands_iff_foldBytes_eq (h : (d.discover exports).outcome = .ok graph) {entry : Export}
    (hentry : entry ∈ exports) {offset : UInt32} (hreaches : graph.Reaches [entry] offset) :
    ∃ node, graph.get? offset = some node ∧
      (d.image.Stands d.isa entry.key offset.toNat node.toInstruction ↔
        foldBytes entry.key = foldBytes node.frame.key) ∧
      graph.Owned d.isa exports node.frame.key offset := by
  have hp := passes_of_discover h
  obtain ⟨start, hstart, earlier, hpath⟩ := hreaches
  rw [List.mem_singleton.1 hstart] at hpath
  have hcontains := hp.grounded.contains_of_path (contains_export h hentry) hpath
  obtain ⟨node, hnode⟩ := Graph.contains_iff.1 (hcontains offset List.mem_cons_self)
  have hstands := hp.stands offset node hnode
  rw [Node.Stands, ← hstands.offset, Graph.offset_of_get? hnode] at hstands
  exact ⟨node, hnode, hstands.rekey_iff, hp.keyed.nodes offset node hnode⟩

/-- `NOP` under the key 1, and behind it `RET` under the key 0. -/
def adjoining : Discovery :=
  ⟨(maskBytes 1 0 [0x00] ++ maskBytes 0 1 [0x34]).toArray, .reference, .ofPresets []⟩

/-- The export at 1 is discovered first, and the one at 0 runs into its code. -/
theorem adjoining_graph :
    ∃ graph node, (adjoining.discover [⟨1, 0⟩, ⟨0, 1⟩]).outcome = .ok graph ∧
      graph.Reaches [⟨0, 1⟩] 1 ∧ graph.get? 1 = some node ∧ node.frame.key = 0 ∧
      ¬adjoining.image.Stands adjoining.isa 1 1 node.toInstruction := by
  have hrun : (adjoining.discoverWithin 40 [⟨1, 0⟩, ⟨0, 1⟩]).map (fun outcome => outcome.map
      fun graph => (graph.successors 0, (graph.get? 1).map fun node => node.frame.key)) =
      some (.ok ([1], some 0)) := by cbv
  obtain ⟨graph, hgraph, hfacts⟩ := exists_discovered _ hrun
  obtain ⟨hsuccessors, hkey⟩ := Prod.mk.inj hfacts
  obtain ⟨node, hnode, hkey⟩ := Option.map_eq_some_iff.1 hkey
  have hsuccessor : 1 ∈ graph.successors 0 := hsuccessors ▸ List.mem_cons_self
  refine ⟨graph, node, hgraph, ⟨_, List.mem_cons_self, [0], Graph.Path.start.step hsuccessor⟩,
    hnode, hkey, ?_⟩
  intro hstands
  have hunknown : (adjoining.image.decode adjoining.isa 1 1).1 =
      .error (.unknownOpcode 1 0x35) := by decide
  have hdecode := hstands.decode
  rw [hunknown] at hdecode
  cases hdecode

theorem adjoining_stands_iff_foldBytes_eq :
    ∃ graph, (adjoining.discover [⟨1, 0⟩, ⟨0, 1⟩]).outcome = .ok graph ∧
      graph.Reaches [⟨0, 1⟩] 1 ∧
      ∃ node, graph.get? 1 = some node ∧
        (adjoining.image.Stands adjoining.isa 1 1 node.toInstruction ↔
          foldBytes 1 = foldBytes node.frame.key) ∧
        graph.Owned adjoining.isa [⟨1, 0⟩, ⟨0, 1⟩] node.frame.key 1 := by
  obtain ⟨graph, _, hgraph, hreaches, _⟩ := adjoining_graph
  exact ⟨graph, hgraph, hreaches,
    stands_iff_foldBytes_eq hgraph (List.mem_cons_of_mem _ List.mem_cons_self) hreaches⟩

/-- Not every export finds recorded what decodes under its own key. -/
theorem adjoining_loses_key :
    ¬∀ (d : Discovery) (exports : List Export) (graph : Graph),
      (d.discover exports).outcome = .ok graph →
      ∀ entry ∈ exports, ∀ offset, graph.Reaches [entry] offset →
        ∃ node, graph.get? offset = some node ∧
          d.image.Stands d.isa entry.key offset.toNat node.toInstruction := by
  intro hall
  obtain ⟨graph, node, hgraph, hreaches, hnode, _, hstands⟩ := adjoining_graph
  obtain ⟨node', hnode', hstands'⟩ :=
    hall adjoining _ graph hgraph ⟨0, 1⟩ (List.mem_cons_of_mem _ List.mem_cons_self) 1 hreaches
  rw [hnode] at hnode'
  cases hnode'
  exact hstands hstands'

end Discovery

end StackLift
