import StackLift.Proofs.Origins

namespace StackLift

variable {P Q : UInt32 → Prop}

def Provenance.Within (v : Provenance) (P : UInt32 → Prop) : Prop :=
  ∀ a ∈ v.sources, P a

theorem Provenance.Within.mono {v : Provenance} (h : v.Within P) (hPQ : ∀ a, P a → Q a) :
    v.Within Q :=
  fun a ha => hPQ a (h a ha)

theorem Provenance.Within.merge {v w : Provenance} (hv : v.Within P) (hw : w.Within P) :
    (v.merge w).Within P :=
  fun a ha => (mem_sources_merge.1 ha).elim (hv a) (hw a)

namespace Frame

/-- What the frame holds satisfies `R`. The instruction pointer does not count. -/
structure All (f : Frame) (R : Provenance → Prop) : Prop where
  stack : ∀ v ∈ f.stack, R v
  registers : ∀ r, r ≠ .ip → R (f.registers.get r)

section

variable {R S : Provenance → Prop} {f g m : Frame}

theorem all_start (ip key : UInt32) (h : R (.entry .object)) : (Frame.start ip key).All R := by
  refine ⟨fun _ hv => (nomatch hv), ?_⟩
  intro r _
  rw [start, RegisterFile.get_fill]
  exact h

theorem All.mono (h : f.All R) (hRS : ∀ v, R v → S v) : f.All S :=
  ⟨fun v hv => hRS v (h.stack v hv), fun r hr => hRS _ (h.registers r hr)⟩

theorem All.moveTo (h : f.All R) (ip : UInt32) : (f.moveTo ip).All R :=
  ⟨h.stack, h.registers⟩

theorem mergeStack_all (hmerge : ∀ v w, R v → R w → R (v.merge w)) {a b : List Provenance}
    (ha : ∀ v ∈ a, R v) (hb : ∀ v ∈ b, R v) : ∀ v ∈ mergeStack a b, R v := by
  intro v hv
  rw [mergeStack, ← List.map_uncurry_zip_eq_zipWith, List.mem_map] at hv
  obtain ⟨⟨left, right⟩, hzip, rfl⟩ := hv
  exact hmerge left right (ha left (List.of_mem_zip hzip).1) (hb right (List.of_mem_zip hzip).2)

theorem All.merge {grew : Bool} (hf : f.All R) (hg : g.All R)
    (hmerge : ∀ v w, R v → R w → R (v.merge w)) (h : f.merge g = .ok (m, grew)) : m.All R := by
  rw [Frame.merge] at h
  split at h
  · cases h
    refine ⟨mergeStack_all hmerge hf.stack hg.stack, ?_⟩
    intro r hr
    rw [get_mergeRegisters _ _ hr]
    exact hmerge _ _ (hf.registers r hr) (hg.registers r hr)
  · cases h

theorem popped_all (h : ∀ v ∈ f.stack, R v) (count : Nat) :
    ∀ v ∈ (f.stack.take count).reverse, R v :=
  fun v hv => h v (List.mem_of_mem_take (List.mem_reverse.1 hv))

theorem get_behindPops (f : Frame) (i : Instruction) (count : Nat) (r : Register) :
    (f.behindPops i count).registers.get r ∈ f.stack ∨
      (f.behindPops i count).registers.get r =
        if r = .ip then .producedBy i.offset .dword else f.registers.get r := by
  simp only [Frame.behindPops, bindPopped]
  split
  · next r' v _ _ heq =>
    simp only [setRegister, RegisterFile.get_set]
    split
    · have hcell : v ∈ (f.stack.take count).reverse := heq ▸ List.mem_cons_self
      exact .inl (List.mem_of_mem_take (List.mem_reverse.1 hcell))
    · exact .inr rfl
  · simp only [setRegister, RegisterFile.get_set]
    exact .inr trivial

theorem All.behindPops (h : f.All R) (i : Instruction) (count : Nat) :
    (f.behindPops i count).All R := by
  constructor
  · rw [stack_behindPops]
    exact fun v hv => h.stack v (List.mem_of_mem_drop hv)
  · intro r hr
    rcases f.get_behindPops i count r with hcell | hget
    · exact h.stack _ hcell
    · rw [hget, if_neg hr]
      exact h.registers r hr

/-- What is pushed behind the pops is a popped cell, what a register held, or a value of its own. -/
theorem pushed_behindPops (hfilled : ∀ v ∈ f.stack, v.isEntry = false) (i : Instruction)
    (count : Nat) (kind : ValueKind) :
    (f.behindPops i count).pushed i kind ∈ f.stack ∨
      (∃ r, r ≠ .ip ∧ (f.registers.get r).isEntry = false ∧
        (f.behindPops i count).pushed i kind = f.registers.get r) ∨
      (f.behindPops i count).pushed i kind =
        .producedBy i.offset (if i.operand = .register .ip then .dword else kind) := by
  rw [pushed]
  split
  · next r hoperand =>
    simp only [hoperand, Operand.register.injEq]
    rcases f.get_behindPops i count r with hcell | hget
    · rw [hfilled _ hcell, if_neg Bool.false_ne_true]
      exact .inl hcell
    · rw [hget]
      by_cases hr : r = .ip
      · rw [if_pos hr, if_pos hr]
        exact .inr (.inr rfl)
      · rw [if_neg hr, if_neg hr]
        cases hentry : (f.registers.get r).isEntry with
        | true => exact .inr (.inr rfl)
        | false => exact .inr (.inl ⟨r, hr, hentry, rfl⟩)
  · next hoperand => exact .inr (.inr (by rw [if_neg (hoperand .ip)]))

end

structure Within (f : Frame) (P : UInt32 → Prop) : Prop where
  stack : ∀ v ∈ f.stack, v.Within P
  registers : ∀ r, r ≠ .ip → (f.registers.get r).Within P

variable {f g m : Frame} {i : Instruction}

theorem within_iff_all : f.Within P ↔ f.All fun v => v.Within P :=
  ⟨fun h => ⟨h.stack, h.registers⟩, fun h => ⟨h.stack, h.registers⟩⟩

theorem within_start (ip key : UInt32) : (Frame.start ip key).Within P :=
  within_iff_all.2 (all_start ip key fun a ha => absurd ha (OffsetSet.not_mem_empty a))

theorem Within.mono (h : f.Within P) (hPQ : ∀ a, P a → Q a) : f.Within Q :=
  within_iff_all.2 ((within_iff_all.1 h).mono fun _ hv => hv.mono hPQ)

theorem Within.moveTo (h : f.Within P) (ip : UInt32) : (f.moveTo ip).Within P :=
  ⟨h.stack, h.registers⟩

theorem Within.merge {grew : Bool} (hf : f.Within P) (hg : g.Within P)
    (h : f.merge g = .ok (m, grew)) : m.Within P :=
  within_iff_all.2 ((within_iff_all.1 hf).merge (within_iff_all.1 hg)
    (fun _ _ hv hw => hv.merge hw) h)

theorem Within.behindPops (h : f.Within P) (i : Instruction) (count : Nat) :
    (f.behindPops i count).Within P :=
  within_iff_all.2 ((within_iff_all.1 h).behindPops i count)

theorem Within.pushed (h : f.Within P) (hi : i.poppedRegister? = none) (count : Nat)
    (kind : ValueKind) (hself : i.offset ∈ ((f.behindPops i count).pushed i kind).sources →
      P i.offset) :
    ((f.behindPops i count).pushed i kind).Within P := by
  rcases f.pushed_cases hi count kind with ⟨⟨kind', hpushed⟩, _⟩ | ⟨r, _, hr, _, hpushed⟩
  · intro a ha
    rw [hpushed] at ha hself
    cases OffsetSet.mem_singleton.1 ha
    exact hself ha
  · rw [hpushed]
    exact h.registers r hr

theorem Within.behindPush (h : f.Within P) (hi : i.poppedRegister? = none) (count : Nat) :
    ∀ kind : Option ValueKind,
      (∀ cell, kind ≠ none → ((f.behindPops i count).behindPush i kind).top? = some cell →
        i.offset ∈ cell.sources → P i.offset) →
      ((f.behindPops i count).behindPush i kind).Within P
  | none, _ => h.behindPops i count
  | some kind, hself => by
    have hrest := h.behindPops i count
    refine ⟨?_, hrest.registers⟩
    intro v hv
    rcases List.mem_cons.1 hv with rfl | hv
    · exact h.pushed hi count kind fun ha => hself _ (Option.some_ne_none _) rfl ha
    · exact hrest.stack v hv

end Frame

theorem InstructionSet.Admits.of_pushes {i : Instruction} (h : reference.Admits i)
    (hpushes : i.opcode.pushes ≠ .none) : i.opcode.flow = .next ∧ i.poppedRegister? = none := by
  have hopcodes : ∀ opcode ∈ reference.opcodes, opcode.pushes ≠ .none →
      opcode.flow = .next ∧ (opcode.pops = .one → opcode.form = .none) := by decide
  obtain ⟨hflow, hform⟩ := hopcodes _ h.opcode hpushes
  refine ⟨hflow, ?_⟩
  rw [Instruction.poppedRegister?]
  split
  · next hpops hoperand =>
    obtain ⟨word, hword⟩ := h.operand
    rw [hform hpops, hoperand] at hword
    cases hword
  · rfl

structure Node.Within (node : Node) (P : UInt32 → Prop) : Prop where
  frame : node.frame.Within P
  inputs : ∀ input ∈ node.inputs, input.Within P

theorem Node.Within.mono {node : Node} (h : node.Within P) (hPQ : ∀ a, P a → Q a) :
    node.Within Q :=
  ⟨h.frame.mono hPQ, fun input hinput => (h.inputs input hinput).mono hPQ⟩

theorem Node.pushes_of_pushKind? {node : Node} (h : node.pushKind? ≠ none) :
    node.opcode.pushes ≠ .none := by
  intro hpushes
  rw [pushKind?, hpushes] at h
  exact h rfl

theorem Node.successors_of_flow {node : Node} (h : node.opcode.flow = .next) :
    node.successors = [node.next] := by
  rw [successors, h]

namespace Graph

/-- The push at an offset is among the sources of the cell on top behind it, as that is recorded or
waits to be. -/
def Leaves (graph : Graph) (agenda : List Frame) (offset : UInt32) : Prop :=
  ∃ node f cell, graph.get? offset = some node ∧ graph.Due agenda f ∧ f.ip = node.next ∧
    f.top? = some cell ∧ offset ∈ cell.sources

structure Sourced (graph : Graph) (agenda : List Frame) : Prop where
  nodes : ∀ offset node, graph.get? offset = some node → node.Within (graph.Leaves agenda)
  agenda : ∀ f ∈ agenda, f.Within (graph.Leaves agenda)

end Graph

theorem recordInputs_all {R : Provenance → Prop} (hmerge : ∀ v w, R v → R w → R (v.merge w))
    {offset : UInt32} {recorded popped inputs : List Provenance}
    (h : recordInputs offset recorded popped = .ok inputs) (hrecorded : ∀ v ∈ recorded, R v)
    (hpopped : ∀ v ∈ popped, R v) : ∀ v ∈ inputs, R v := by
  rw [recordInputs] at h
  split at h
  · cases h
    exact hpopped
  · split at h
    · cases h
      exact Frame.mergeStack_all hmerge hrecorded hpopped
    · cases h

namespace Discovery

variable {d : Discovery} {graph next final : Graph} {frame : Frame} {frames rest : List Frame}
  {node known : Node} {e : Effect}

theorem Arrives.within (h : d.Arrives graph frame node) (hs : graph.Sourced (frame :: rest)) :
    node.Within (graph.Leaves (frame :: rest)) := by
  have hframe := hs.agenda frame List.mem_cons_self
  cases h with
  | found _ hdecode =>
    obtain ⟨_, hnode, hinputs, _⟩ := decode_cases hdecode
    constructor
    · rw [hnode]
      exact hframe
    · rw [hinputs]
      exact fun _ hinput => (nomatch hinput)
  | grown hget hmerge =>
    have hold := hs.nodes _ _ hget
    exact ⟨hold.frame.merge hframe hmerge, hold.inputs⟩

theorem Follows.within (h : Follows node known e) (hnode : node.Within P) : known.Within P := by
  obtain ⟨_, he⟩ := Node.effectOn_eq_ok_iff h.effect
  have hframe : known.frame.Within P := h.frame ▸ hnode.frame
  refine ⟨hframe, recordInputs_all (fun _ _ hv hw => hv.merge hw) h.inputs hnode.inputs ?_⟩
  rw [he]
  exact Frame.popped_all hframe.stack known.popCount

theorem Follows.within_behind (h : Follows node known e) (hnode : node.Within P)
    (hisa : InstructionSet.reference.Admits known.toInstruction)
    (hself : ∀ cell, known.opcode.flow = .next → e.frame.top? = some cell →
      known.offset ∈ cell.sources → P known.offset) : e.frame.Within P := by
  obtain ⟨_, he⟩ := Node.effectOn_eq_ok_iff h.effect
  have hframe := (h.within hnode).frame
  by_cases hkind : known.pushKind? = none
  · rw [he, hkind]
    exact hframe.behindPops known.toInstruction known.popCount
  · obtain ⟨hflow, hpopped⟩ := hisa.of_pushes (Node.pushes_of_pushKind? hkind)
    rw [he]
    apply hframe.behindPush hpopped
    intro cell _ htop
    apply hself cell hflow
    rw [he]
    exact htop

section

variable (hisa : d.isa = .reference) (hgraph : graph.DrawnFrom d.isa)
  (h : (d.visit graph frame).outcome = .ok (next, frames))
include hisa hgraph h

theorem visit_leaves {a : UInt32} (ha : graph.Leaves (frame :: rest) a) :
    next.Leaves (frames ++ rest) a := by
  have hcalls : d.isa.CallsReturn := hisa ▸ InstructionSet.reference_callsReturn
  obtain ⟨node, f, cell, hnode, hf, hip, htop⟩ := ha
  have hdue := visit_due hcalls hgraph h hf
  rcases visit_cases hcalls hgraph h with ⟨_, rfl, _⟩ | ⟨_, known, _, harrives, hknown, hget, _⟩
  · exact ⟨node, f, cell, hnode, hdue, hip, htop⟩
  · by_cases hoffset : a = frame.ip
    · refine ⟨known, f, cell, by rw [hget, if_pos hoffset], hdue, ?_, htop⟩
      rw [hip, hknown.instruction]
      cases harrives with
      | found hnone _ =>
        rw [← hoffset, hnode] at hnone
        cases hnone
      | grown hold _ =>
        rw [← hoffset, hnode] at hold
        cases hold
        rfl
    · exact ⟨node, f, cell, by rw [hget, if_neg hoffset, hnode], hdue, hip, htop⟩

theorem visit_sourced (hs : graph.Sourced (frame :: rest)) : next.Sourced (frames ++ rest) := by
  have hcalls : d.isa.CallsReturn := hisa ▸ InstructionSet.reference_callsReturn
  have hleaves : ∀ a, graph.Leaves (frame :: rest) a → next.Leaves (frames ++ rest) a :=
    fun _ => visit_leaves hisa hgraph h
  have hold : ∀ offset node, graph.get? offset = some node →
      node.Within (next.Leaves (frames ++ rest)) :=
    fun offset node hnode => (hs.nodes offset node hnode).mono hleaves
  have hrest : ∀ f ∈ rest, f.Within (next.Leaves (frames ++ rest)) :=
    fun f hf => (hs.agenda f (List.mem_cons_of_mem _ hf)).mono hleaves
  rcases visit_cases hcalls hgraph h with
    ⟨_, rfl, rfl⟩ | ⟨node, known, e, harrives, hknown, hget, hframes⟩
  · exact ⟨hold, hrest⟩
  · have hnode := (harrives.within hs).mono hleaves
    have hadmits : InstructionSet.reference.Admits known.toInstruction := by
      rw [hknown.instruction, ← hisa]
      exact harrives.admits hgraph
    have hself : next.get? known.offset = some known := by
      rw [hget, hknown.instruction, harrives.offset_eq, if_pos rfl]
    have hbehind : e.frame.Within (next.Leaves (frames ++ rest)) := by
      apply hknown.within_behind hnode hadmits
      intro cell hflow htop hcell
      refine ⟨known, e.frame.moveTo known.next, cell, hself, .inl ?_, rfl, htop, hcell⟩
      rw [hframes, Node.successors_of_flow hflow]
      exact List.mem_cons_self
    constructor
    · intro offset other hother
      rw [hget] at hother
      split at hother
      · cases hother
        exact hknown.within hnode
      · exact hold offset other hother
    · intro f hf
      rcases List.mem_append.1 hf with hf | hf
      · rw [hframes] at hf
        obtain ⟨t, _, rfl⟩ := List.mem_map.1 hf
        exact hbehind.moveTo t
      · exact hrest f hf

end

theorem discover_sourced (hisa : d.isa = .reference) {exports : List Export}
    (h : (d.discover exports).outcome = .ok final) : final.Sourced [] := by
  have hcalls : d.isa.CallsReturn := hisa ▸ InstructionSet.reference_callsReturn
  refine (discover_preserves (P := fun graph agenda => graph.DrawnFrom d.isa ∧ graph.Sourced agenda)
    ?_ ?_ ?_ h).2
  · exact ⟨Graph.drawnFrom_empty _, fun _ _ hnode => (nomatch hnode), fun _ hf => (nomatch hf)⟩
  · intro graph entry _ hp
    have hleaves : ∀ a, graph.Leaves [] a → graph.Leaves [.start entry.offset entry.key] a := by
      rintro a ⟨node, f, cell, hnode, hf, hrest⟩
      exact ⟨node, f, cell, hnode, .inr (Graph.covers_of_due_nil hf), hrest⟩
    refine ⟨hp.1, fun offset node hnode => (hp.2.nodes offset node hnode).mono hleaves, ?_⟩
    intro f hf
    rw [List.mem_singleton.1 hf]
    exact Frame.within_start _ _
  · exact fun hp hvisit => ⟨visit_drawnFrom hcalls hp.1 hvisit,
      visit_sourced hisa hp.1 hvisit hp.2⟩

end Discovery

end StackLift
