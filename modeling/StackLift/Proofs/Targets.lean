import StackLift.Proofs.Closure
import StackLift.Proofs.Grounded
import StackLift.Proofs.Growth

namespace StackLift

namespace Graph

variable {g h : Graph} {P : UInt32 → Prop}

/-- Graphs find the same instructions if they agree on what those consume, which may be assumed to
satisfy what the pending offsets do. -/
theorem closure_congr {pending : List UInt32} {found : OffsetSet} (hpending : ∀ a ∈ pending, P a)
    (hagree : ∀ a ∈ g.closure pending found, P a →
      h.inputSources a = g.inputSources a ∧ ∀ t ∈ g.inputSources a, P t) :
    h.closure pending found = g.closure pending found ∧
      ∀ a ∈ g.closure pending found, a ∈ found ∨ P a := by
  fun_induction g.closure pending found with
  | case1 found =>
    rw [closure]
    exact ⟨rfl, fun a ha => .inl ha⟩
  | case2 found offset rest hfound ih =>
    rw [closure, if_pos hfound]
    exact ih (fun a ha => hpending a (List.mem_cons_of_mem _ ha)) hagree
  | case3 found offset rest hfound ih =>
    have hoffset : P offset := hpending offset List.mem_cons_self
    obtain ⟨heq, hinputs⟩ :=
      hagree offset (mem_closure_of_found (OffsetSet.mem_insert.2 (.inl rfl))) hoffset
    have hmore : ∀ a ∈ g.inputSources offset ++ rest, P a := by
      intro a ha
      rcases List.mem_append.1 ha with ha | ha
      · exact hinputs a ha
      · exact hpending a (List.mem_cons_of_mem _ ha)
    obtain ⟨hclosure, hall⟩ := ih hmore hagree
    rw [closure, if_neg hfound, heq]
    refine ⟨hclosure, ?_⟩
    intro a ha
    rcases hall a ha with ha | ha
    · rcases OffsetSet.mem_insert.1 ha with rfl | ha
      · exact .inr hoffset
      · exact .inl ha
    · exact .inr ha

theorem producers_congr {v : Provenance}
    (hclosure : h.closure v.sources.toList .empty = g.closure v.sources.toList .empty)
    (hagree : ∀ a ∈ g.closure v.sources.toList .empty,
      (h.get? a).map Node.toInstruction = (g.get? a).map Node.toInstruction) :
    h.producers v = g.producers v := by
  rw [producers, producers, hclosure]
  exact List.filterMap_congr hagree

/-- No instruction that the value rests on consumes a value with several producers. -/
def Unjoined (graph : Graph) (v : Provenance) : Prop :=
  ∀ a ∈ graph.closure v.sources.toList .empty, ∀ node, graph.get? a = some node →
    ∀ input ∈ node.inputs, input.sources.size ≤ 1

/-- No instruction that the value rests on has gained a producer in the later graph. -/
def Unchanged (later earlier : Graph) (v : Provenance) : Prop :=
  ∀ a ∈ earlier.closure v.sources.toList .empty, later.inputSources a = earlier.inputSources a

end Graph

theorem Provenance.Covers.sources_eq {v w : Provenance} (h : v.Covers w)
    (hsize : v.sources.size ≤ 1) (hw : w.isEntry = false) : v.sources = w.sources := by
  obtain ⟨b, hb⟩ := exists_mem_of_isEntry hw
  have hbv := h.sources b hb
  obtain ⟨source, hsource⟩ := List.length_eq_one_iff.1
    (Nat.le_antisymm hsize (List.length_pos_of_mem hbv))
  apply OffsetSet.ext_mem
  intro a
  refine ⟨?_, h.sources a⟩
  intro ha
  rw [← OffsetSet.mem_toList, hsource, List.mem_singleton] at ha hbv
  rw [ha, ← hbv]
  exact hb

theorem Node.Extends.flatMap_sources {later earlier : Node} (h : later.Extends earlier)
    (hlater : ∀ input ∈ later.inputs, input.sources.size ≤ 1)
    (hearlier : ∀ input ∈ earlier.inputs, input.isEntry = false) :
    later.inputs.flatMap (fun input => input.sources.toList) =
      earlier.inputs.flatMap fun input => input.sources.toList := by
  have hinputs := h.inputs
  generalize later.inputs = vs at hinputs hlater
  generalize earlier.inputs = ws at hinputs hearlier
  induction hinputs with
  | nil => rfl
  | @cons v w vs ws hvw _ ih =>
    have hv := hvw.sources_eq (hlater v List.mem_cons_self) (hearlier w List.mem_cons_self)
    rw [List.flatMap_cons, List.flatMap_cons, hv,
      ih (fun input hinput => hlater input (List.mem_cons_of_mem _ hinput))
        (fun input hinput => hearlier input (List.mem_cons_of_mem _ hinput))]

namespace Graph

variable {later earlier : Graph} {agenda : List Frame} {v : Provenance}

theorem Grounded.contains_of_inputSources (h : earlier.Grounded agenda) {offset a : UInt32}
    (ha : a ∈ earlier.inputSources offset) : earlier.contains a = true := by
  rw [inputSources] at ha
  split at ha
  · next node hnode =>
    obtain ⟨input, hinput, ha⟩ := List.mem_flatMap.1 ha
    exact ((h.nodes offset node hnode).inputs input hinput).within a ha
  · cases ha

/-- What has a single producer in the end has had it from the first. -/
theorem Unjoined.unchanged (h : later.Unjoined v) (hext : later.Extends earlier)
    (hg : earlier.Grounded agenda) (hv : v.Within fun a => earlier.contains a = true) :
    later.Unchanged earlier v := by
  have hagree : ∀ a ∈ later.closure v.sources.toList .empty, earlier.contains a = true →
      earlier.inputSources a = later.inputSources a ∧
        ∀ t ∈ later.inputSources a, earlier.contains t = true := by
    intro a ha hcontains
    obtain ⟨old, hold⟩ := contains_iff.1 hcontains
    obtain ⟨node, hnode, hgrown⟩ := hext a old hold
    have heq : later.inputSources a = earlier.inputSources a := by
      rw [inputSources_eq hnode, inputSources_eq hold]
      exact hgrown.flatMap_sources (h a ha node hnode)
        fun input hinput => ((hg.nodes a old hold).inputs input hinput).filled
    refine ⟨heq.symm, ?_⟩
    rw [heq]
    exact fun t ht => hg.contains_of_inputSources ht
  obtain ⟨hclosure, hall⟩ := closure_congr hv hagree
  intro a ha
  rw [hclosure] at ha
  exact (hagree a ha ((hall a ha).resolve_left (OffsetSet.not_mem_empty a))).1.symm

theorem Unchanged.producers_eq (h : later.Unchanged earlier v) (hext : later.Extends earlier)
    (hg : earlier.Grounded agenda) (hv : v.Within fun a => earlier.contains a = true) :
    later.producers v = earlier.producers v := by
  obtain ⟨hclosure, hall⟩ := closure_congr (g := earlier) (h := later) hv
    fun a ha _ => ⟨h a ha, fun t ht => hg.contains_of_inputSources ht⟩
  apply producers_congr hclosure
  intro a ha
  obtain ⟨old, hold⟩ := contains_iff.1 ((hall a ha).resolve_left (OffsetSet.not_mem_empty a))
  obtain ⟨node, hnode, hgrown⟩ := hext a old hold
  rw [hnode, hold, Option.map_some, Option.map_some, hgrown.instruction]

end Graph

namespace Discovery

variable {d : Discovery} {exports : List Export} {graph next : Graph} {frame : Frame}
  {frames : List Frame} {node known : Node} {call : Option Call} {e : Effect}

theorem target_cases {target : UInt32} (h : d.target graph node = .ok target) :
    ∃ input, node.inputs.getLast? = some input ∧ d.fold graph input = .ok target.toUInt64 := by
  rw [Discovery.target] at h
  split at h
  · cases h
  · next input hinput =>
    split at h
    · cases h
    · next word hword =>
      split at h
      · next hlt =>
        cases h
        refine ⟨input, hinput, ?_⟩
        rw [hword]
        congr 1
        apply UInt64.toNat_inj.1
        rw [UInt32.toNat_toUInt64, UInt64.toNat_toUInt32]
        exact (Nat.mod_eq_of_lt hlt).symm
      · cases h

structure Resolves (d : Discovery) (graph : Graph) (node : Node) (input : Provenance)
    (target : UInt32) : Prop where
  last : node.inputs.getLast? = some input
  fold : d.fold graph input = .ok target.toUInt64
  recorded : target ∈ node.targets

section

variable (h : d.Followed graph node known call e) (hself : next.get? node.offset = some known)
  (hrest : ∀ offset, offset ≠ node.offset → next.get? offset = graph.get? offset)
include h hself hrest

theorem Followed.fold_eq (v : Provenance) :
    d.fold next v = d.fold (graph.insert (node.consuming known.inputs call)) v := by
  have hagree : ∀ offset,
      ((graph.insert (node.consuming known.inputs call)).get? offset = next.get? offset) ∨
        ((graph.insert (node.consuming known.inputs call)).get? offset =
          some (node.consuming known.inputs call) ∧ next.get? offset = some known) := by
    intro offset
    rw [Graph.get?_insert]
    by_cases hoffset : offset = node.offset
    · exact .inr ⟨if_pos hoffset, hoffset ▸ hself⟩
    · exact .inl ((if_neg hoffset).trans (hrest offset hoffset).symm)
  have hsources : ∀ offset, next.inputSources offset =
      (graph.insert (node.consuming known.inputs call)).inputSources offset := by
    intro offset
    rw [Graph.inputSources, Graph.inputSources]
    rcases hagree offset with heq | ⟨hold, hnew⟩
    · rw [heq]
    · rw [hold, hnew]
      rfl
  have hclosure : next.closure v.sources.toList .empty =
      (graph.insert (node.consuming known.inputs call)).closure v.sources.toList .empty :=
    (Graph.closure_congr (P := fun _ => True) (fun _ _ => trivial)
      fun offset _ _ => ⟨hsources offset, fun _ _ => trivial⟩).1
  rw [fold, fold, Graph.producers_congr hclosure]
  intro offset _
  rcases hagree offset with heq | ⟨hold, hnew⟩
  · rw [heq]
  · rw [hold, hnew, Option.map_some, Option.map_some, h.toInstruction_eq]
    rfl

theorem Followed.resolves (ht : node.opcode.transfersControl = true) :
    ∃ input target, d.Resolves next known input target := by
  obtain ⟨target, htarget, hmem, _⟩ := resolveTarget_cases h.inferred ht
  obtain ⟨input, hinput, hfold⟩ := target_cases htarget
  refine ⟨input, target, hinput, ?_, ?_⟩
  · rw [h.fold_eq hself hrest]
    exact hfold
  · rw [h.eq]
    exact hmem

end

def Resolved (d : Discovery) (exports : List Export) (graph : Graph) (offset : UInt32)
    (node : Node) : Prop :=
  ∃ earlier agenda input target, d.Passes exports ⟨earlier, agenda⟩ ∧ graph.Extends earlier ∧
    earlier.get? offset = some node ∧ d.Resolves earlier node input target

theorem Passes.resolved {s : Search} (h : d.Passes exports s) :
    ∀ offset node, s.graph.get? offset = some node → node.opcode.transfersControl = true →
      d.Resolved exports s.graph offset node := by
  intro offset node hnode
  rw [← Graph.offset_of_get? hnode]
  apply h.forall_nodes (P := fun graph node => node.opcode.transfersControl = true →
    d.Resolved exports graph node.offset node) ?_ ?_ offset node hnode
  · intro graph next node hext hresolved ht
    obtain ⟨earlier, agenda, input, target, hearlier, hold, hresolves⟩ := hresolved ht
    exact ⟨earlier, agenda, input, target, hearlier, hext.trans hold, hresolves⟩
  · intro graph next frame frames rest arrived known _ _ hp hvisit _ harrives hknown hget ht
    rw [hknown.toInstruction_eq] at ht ⊢
    obtain ⟨hself, hrest⟩ := harrives.get?_next hget
    obtain ⟨input, target, hresolves⟩ := hknown.resolves hself hrest ht
    exact ⟨next, frames ++ rest, input, target, hp.visit hvisit, .refl next, hself, hresolves⟩

/-- Every control transfer has recorded the target that its last input folded to when it was last
followed. In the end that input folds to the same target if no instruction that it rests on has
gained a producer since, as when none of them consumes a value with several producers. -/
theorem resolves_of_unchanged (h : (d.discover exports).outcome = .ok graph)
    {offset : UInt32} (hnode : graph.get? offset = some node)
    (ht : node.opcode.transfersControl = true) :
    ∃ earlier agenda input target, d.Passes exports ⟨earlier, agenda⟩ ∧ graph.Extends earlier ∧
      earlier.get? offset = some node ∧ d.Resolves earlier node input target ∧
      (graph.Unchanged earlier input → d.Resolves graph node input target) ∧
      (graph.Unjoined input → d.Resolves graph node input target) := by
  obtain ⟨earlier, agenda, input, target, hearlier, hext, hold, hresolves⟩ :=
    (passes_of_discover h).resolved offset node hnode ht
  have hg := hearlier.grounded
  have hinput : input ∈ node.inputs := List.mem_of_getLast? hresolves.last
  have hwithin := ((hg.nodes offset node hold).inputs input hinput).within
  have hunchanged : graph.Unchanged earlier input → d.Resolves graph node input target := by
    intro hunchanged
    refine ⟨hresolves.last, ?_, hresolves.recorded⟩
    rw [fold, hunchanged.producers_eq hext hg hwithin]
    exact hresolves.fold
  exact ⟨earlier, agenda, input, target, hearlier, hext, hold, hresolves, hunchanged,
    fun hunjoined => hunchanged (hunjoined.unchanged hext hg hwithin)⟩

/-- `PUSHI_DWORD 12; PUSHI_DWORD 0; ADD_DWORD; JMP`, then at 12 `PUSHI_DWORD 23; PUSHI_DWORD 5; JMP`
back to the second push, and `RET` at 23, which the sum leads to in the second round. -/
def rejoining : Discovery :=
  ⟨(maskBytes 0 0 [0x04, 12, 0, 0, 0, 0x04, 0, 0, 0, 0, 0x10, 0x30, 0x04, 23, 0, 0, 0,
      0x04, 5, 0, 0, 0, 0x30, 0x34]).toArray, .reference, .ofPresets []⟩

theorem rejoining_graph :
    ∃ graph node input, (rejoining.discover [⟨0, 0⟩]).outcome = .ok graph ∧
      graph.get? 11 = some node ∧ node.opcode.transfersControl = true ∧ node.targets = [12] ∧
      node.inputs.getLast? = some input ∧ rejoining.fold graph input = .ok 23 := by
  have hrun : (rejoining.discoverWithin 40 [⟨0, 0⟩]).map (fun outcome => outcome.map fun graph => do
      let node ← graph.get? 11
      let input ← node.inputs.getLast?
      return (node.opcode.transfersControl, node.targets, rejoining.fold graph input)) =
      some (.ok (some (true, [12], .ok 23))) := by cbv
  obtain ⟨graph, hgraph, hfacts⟩ := exists_discovered _ hrun
  simp only [Option.bind_eq_bind, Option.bind_eq_some_iff, Option.pure_def, Option.some.injEq,
    Prod.mk.injEq] at hfacts
  obtain ⟨node, hnode, input, hinput, htransfers, htargets, hfold⟩ := hfacts
  exact ⟨graph, node, input, hgraph, hnode, htransfers, htargets, hinput, hfold⟩

/-- The jump back rests on a single push, so it has recorded what it folds to in the end. -/
theorem rejoining_resolves_of_unchanged :
    ∃ graph node input, (rejoining.discover [⟨0, 0⟩]).outcome = .ok graph ∧
      graph.get? 22 = some node ∧ node.opcode.transfersControl = true ∧
      graph.Unjoined input ∧ rejoining.Resolves graph node input 5 := by
  have hrun : (rejoining.discoverWithin 40 [⟨0, 0⟩]).map (fun outcome => outcome.map fun graph => do
      let node ← graph.get? 22
      let input ← node.inputs.getLast?
      let producers := (graph.closure input.sources.toList .empty).toList.filterMap graph.get?
      return (node.opcode.transfersControl, node.targets,
        producers.flatMap fun producer => producer.inputs.map fun v => v.sources.size)) =
      some (.ok (some (true, [5], []))) := by cbv
  obtain ⟨graph, hgraph, hfacts⟩ := exists_discovered _ hrun
  simp only [Option.bind_eq_bind, Option.bind_eq_some_iff, Option.pure_def, Option.some.injEq,
    Prod.mk.injEq] at hfacts
  obtain ⟨node, hnode, input, hinput, htransfers, htargets, hsizes⟩ := hfacts
  have hunjoined : graph.Unjoined input := by
    intro a ha producer hproducer v hv
    have hmem := List.mem_filterMap.2 ⟨a, OffsetSet.mem_toList.2 ha, hproducer⟩
    have hnone := List.flatMap_eq_nil_iff.1 hsizes producer hmem
    rw [List.map_eq_nil_iff] at hnone
    rw [hnone] at hv
    cases hv
  obtain ⟨_, _, _, target, _, _, _, hresolves, _, hunchanged⟩ :=
    resolves_of_unchanged hgraph hnode htransfers
  obtain rfl := Option.some.inj (hinput.symm.trans hresolves.last)
  have htarget := hresolves.recorded
  rw [htargets, List.mem_singleton] at htarget
  exact ⟨graph, node, input, hgraph, hnode, htransfers, hunjoined, htarget ▸ hunchanged hunjoined⟩

/-- Not every transfer has recorded the target that its last input folds to in the end. -/
theorem rejoining_misses_target :
    ¬∀ (d : Discovery) (exports : List Export) (graph : Graph), d.isa = .reference →
      (d.discover exports).outcome = .ok graph →
      ∀ offset node, graph.get? offset = some node → node.opcode.transfersControl = true →
        ∃ input target, d.Resolves graph node input target := by
  intro hall
  obtain ⟨graph, node, input, hgraph, hnode, htransfers, htargets, hinput, hfold⟩ := rejoining_graph
  obtain ⟨input', target, hlast, hfold', hmem⟩ :=
    hall rejoining [⟨0, 0⟩] graph rfl hgraph 11 node hnode htransfers
  rw [hinput] at hlast
  cases hlast
  rw [hfold] at hfold'
  rw [htargets, List.mem_singleton] at hmem
  subst hmem
  exact absurd hfold' (by decide)

end Discovery

end StackLift
