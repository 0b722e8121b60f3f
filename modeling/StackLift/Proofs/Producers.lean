import StackLift.Proofs.Sources

namespace StackLift

theorem Provenance.isEntry_eq_false_of_mem {v : Provenance} {a : UInt32} (h : a ∈ v.sources) :
    v.isEntry = false := by
  rw [isEntry, List.isEmpty_eq_false_iff]
  intro hnil
  rw [← OffsetSet.mem_toList, hnil] at h
  exact List.not_mem_nil h

/-- The push of a register that is known to be filled, though not by the push itself, which is no
source of the cell on top behind it. -/
def Graph.Masked (graph : Graph) (offset : UInt32) : Prop :=
  ∃ node r follower cell, graph.get? offset = some node ∧ node.opcode.pushes ≠ .none ∧
    node.operand = .register r ∧ r ≠ .ip ∧ (node.frame.registers.get r).isEntry = false ∧
    graph.get? node.next = some follower ∧ follower.frame.top? = some cell ∧ offset ∉ cell.sources

def Graph.Accounts (graph : Graph) (origin : Origin) (v : Provenance) : Prop :=
  origin.offset ∈ v.sources ∨ graph.Masked origin.offset

theorem Graph.Accounts.covers {graph : Graph} {origin : Origin} {v w : Provenance}
    (h : graph.Accounts origin w) (hv : v.Covers w) : graph.Accounts origin v :=
  h.imp_left (hv.sources origin.offset)

theorem Origins.pushed_cases (o : Origins) (i : Instruction) (self : Origin) :
    o.pushed i self = self ∨ ∃ r origin, i.operand = .register r ∧ r ≠ .ip ∧
      o.registers.get r = some origin ∧ o.pushed i self = origin := by
  cases hoperand : i.operand with
  | none => exact .inl (by simp only [pushed, hoperand])
  | immediate value => exact .inl (by simp only [pushed, hoperand])
  | register r =>
    by_cases hr : r = .ip
    · exact .inl (by simp only [pushed, hoperand, if_pos hr])
    · cases horigin : o.registers.get r with
      | none => exact .inl (by simp only [pushed, hoperand, if_neg hr, horigin, Option.getD_none])
      | some origin =>
        refine .inr ⟨r, origin, rfl, hr, horigin, ?_⟩
        simp only [pushed, hoperand, if_neg hr, horigin, Option.getD_some]

namespace Graph

variable {graph : Graph} {offset t : UInt32} {node target : Node} {e : Effect} {o : Origins}

theorem accounts_pushed (hnode : graph.get? offset = some node)
    (htarget : graph.get? node.next = some target) {cell : Provenance} {kind : ValueKind}
    (htop : target.frame.top? = some cell) (hpushes : node.opcode.pushes ≠ .none)
    (hpopped : node.poppedRegister? = none) (ho : o.Tracks graph.Accounts node.frame)
    (hcell : cell.Covers ((node.frame.behindPops node.toInstruction node.popCount).pushed
      node.toInstruction kind)) (position : Nat) :
    graph.Accounts ((o.behindPops node.toInstruction node.popCount).pushed node.toInstruction
      ⟨position, node.offset⟩) cell := by
  have hoffset : node.offset = offset := offset_of_get? hnode
  have hregisters : (o.behindPops node.toInstruction node.popCount).registers = o.registers := by
    simp only [Origins.behindPops, Origins.bindPopped, hpopped]
  have horigin := (o.behindPops node.toInstruction node.popCount).pushed_cases node.toInstruction
    ⟨position, node.offset⟩
  rw [hregisters] at horigin
  rcases node.frame.pushed_cases hpopped node.popCount kind with
    ⟨⟨kind', hpushed⟩, hentry⟩ | ⟨r, hoperand, hr, hfilled, hpushed⟩
  · rcases horigin with horigin | ⟨r, origin, hoperand, hr, hget, horigin⟩
    · rw [horigin]
      rw [hpushed] at hcell
      exact .inl (hcell.sources _ (OffsetSet.mem_singleton.2 rfl))
    · rw [horigin]
      rcases ho.registers r hr origin hget with hsource | hmasked
      · have hempty := hentry r hoperand hr
        rw [Provenance.isEntry_eq_false_of_mem hsource] at hempty
        cases hempty
      · exact .inr hmasked
  · rw [hpushed] at hcell
    rcases horigin with horigin | ⟨r', origin, hoperand', _, hget, horigin⟩
    · rw [horigin]
      by_cases hmem : node.offset ∈ cell.sources
      · exact .inl hmem
      · exact .inr ⟨node, r, target, cell, by rw [hoffset, hnode], hpushes, hoperand, hr, hfilled,
          htarget, htop, hmem⟩
    · rw [hoperand] at hoperand'
      cases hoperand'
      rw [horigin]
      exact (ho.registers r hr origin hget).covers hcell

theorem tracks_step (hnode : graph.get? offset = some node)
    (htarget : graph.get? t = some target) (ht : t ∈ node.successors)
    (hisa : InstructionSet.reference.Admits node.toInstruction)
    (ho : o.Tracks graph.Accounts node.frame) (he : node.effectOn node.frame = .ok e)
    (hcovers : target.frame.Covers (e.frame.moveTo t)) (position : Nat) :
    (o.step node position).Tracks graph.Accounts target.frame := by
  obtain ⟨_, rfl⟩ := Node.effectOn_eq_ok_iff he
  have hbehind := ho.behindPops node.toInstruction node.popCount
  have hmono : ∀ origin v w, v.Covers w → graph.Accounts origin w → graph.Accounts origin v :=
    fun _ _ _ hv hw => hw.covers hv
  rw [Origins.step]
  cases hkind : node.pushKind? with
  | none =>
    rw [hkind] at hcovers
    exact hbehind.covers ⟨hcovers.stack, hcovers.registers⟩ hmono
  | some kind =>
    have hpushes : node.opcode.pushes ≠ .none := by
      apply Node.pushes_of_pushKind?
      rw [hkind]
      exact Option.some_ne_none kind
    obtain ⟨hflow, hpopped⟩ := hisa.of_pushes hpushes
    rw [Node.successors_of_flow hflow, List.mem_singleton] at ht
    rw [hkind] at hcovers
    obtain ⟨cell, below, hcell, hbelow, hstack⟩ := List.forall₂_cons_right_iff.1 hcovers.stack
    have htop : target.frame.top? = some cell := by
      rw [Frame.top?, hstack]
      rfl
    have hself := accounts_pushed hnode (ht ▸ htarget) htop hpushes hpopped ho hcell position
    let rest : Frame := { target.frame with stack := below }
    have hrest : rest.Covers (node.frame.behindPops node.toInstruction node.popCount) :=
      ⟨hbelow, hcovers.registers⟩
    have htracks := hbehind.covers hrest hmono
    refine ⟨?_, htracks.registers⟩
    rw [hstack]
    exact .cons hself htracks.stack

/-- On every path from an export the recorded frames account for the origins. -/
theorem tracks_along {start : Frame} (hs : graph.Settling .reference [])
    (hstart : graph.Covers start) (hfresh : Origins.start.Tracks graph.Accounts start)
    {earlier : List UInt32} (hpath : graph.Path start.ip (offset :: earlier)) :
    ∃ node origins, graph.get? offset = some node ∧ graph.originsAlong earlier = some origins ∧
      origins.Tracks graph.Accounts node.frame := by
  generalize hp : offset :: earlier = path at hpath
  induction hpath generalizing offset earlier with
  | start =>
    cases hp
    obtain ⟨node, hnode, hcovers⟩ := hstart
    exact ⟨node, .start, hnode, rfl, hfresh.covers hcovers fun _ _ _ hv hw => hw.covers hv⟩
  | @step t _ _ _ ht ih =>
    cases hp
    obtain ⟨node, origins, hnode, horigins, htracks⟩ := ih rfl
    obtain ⟨e, he⟩ := hs.settles _ _ hnode
    obtain ⟨known, hknown, ht⟩ := mem_successors_iff.1 ht
    rw [hnode] at hknown
    cases hknown
    obtain ⟨target, htarget, hcovers⟩ := covers_of_due_nil (he.successors t ht)
    refine ⟨target, _, htarget, originsAlong_cons hnode horigins, ?_⟩
    exact tracks_step hnode htarget ht (hs.drawnFrom _ _ hnode) htracks he.effect hcovers _

theorem not_masked_of_leaves {a : UInt32} (h : graph.Leaves [] a) : ¬graph.Masked a := by
  rintro ⟨node, _, follower, cell, hnode, _, _, _, _, hfollower, htop, hcell⟩
  obtain ⟨node', f, cell', hnode', hf, hip, htop', hcell'⟩ := h
  rw [hnode] at hnode'
  cases hnode'
  obtain ⟨follower', hfollower', hcovers⟩ := covers_of_due_nil hf
  rw [hip, hfollower] at hfollower'
  cases hfollower'
  have htops := hcovers.stack
  rw [Frame.top?, List.head?_eq_some_iff] at htop htop'
  obtain ⟨_, htop⟩ := htop
  obtain ⟨_, htop'⟩ := htop'
  rw [htop, htop'] at htops
  cases htops with
  | cons hcells _ => exact hcell (hcells.sources a hcell')

end Graph

namespace Discovery

variable {d : Discovery} {graph : Graph} {exports : List Export}

/-- On a path from an export the recorded inputs account for the origins of the operands. -/
theorem discover_accounts (hisa : d.isa = .reference)
    (h : (d.discover exports).outcome = .ok graph) {entry : Export} (hentry : entry ∈ exports)
    {offset : UInt32} {earlier : List UInt32}
    (hpath : graph.Path entry.offset (offset :: earlier)) :
    ∃ node origins, graph.get? offset = some node ∧ graph.originsAlong earlier = some origins ∧
      List.Forall₂ graph.Accounts (origins.popped node) node.inputs := by
  have hcalls : d.isa.CallsReturn := hisa ▸ InstructionSet.reference_callsReturn
  have hsettling : graph.Settling .reference [] := hisa ▸ discover_settling hcalls h
  obtain ⟨node, origins, hnode, horigins, htracks⟩ := graph.tracks_along hsettling
    (discover_covers hcalls h entry hentry) (Origins.Tracks.start _ entry.key) hpath
  obtain ⟨e, he⟩ := hsettling.settles offset node hnode
  have hpopped := htracks.popped node.popCount
  have hinputs := List.Forall₂.flip he.inputs
  rw [(Node.effectOn_eq_ok_iff he.effect).2] at hinputs
  exact ⟨node, origins, hnode, horigins,
    forall₂_comp hpopped hinputs fun _ _ _ horigin hv => horigin.covers hv⟩

/-- No push that is recorded as a producer is masked. -/
theorem not_masked_of_mem_sources (hisa : d.isa = .reference)
    (h : (d.discover exports).outcome = .ok graph) {offset : UInt32} {node : Node}
    (hnode : graph.get? offset = some node) {input : Provenance} (hinput : input ∈ node.inputs)
    {a : UInt32} (ha : a ∈ input.sources) : ¬graph.Masked a :=
  Graph.not_masked_of_leaves (((discover_sourced hisa h).nodes offset node hnode).inputs input
    hinput a ha)

/-- The operands of an instruction on a path come from the producers recorded for its slots, except
where their pushes are masked, which are recorded nowhere. -/
theorem origin_mem_sources_iff (hisa : d.isa = .reference)
    (h : (d.discover exports).outcome = .ok graph) {entry : Export} (hentry : entry ∈ exports)
    {offset : UInt32} {earlier : List UInt32}
    (hpath : graph.Path entry.offset (offset :: earlier)) :
    ∃ node origins, graph.get? offset = some node ∧ graph.originsAlong earlier = some origins ∧
      List.Forall₂ (fun origin input => origin.offset ∈ input.sources ↔
        ¬graph.Masked origin.offset) (origins.popped node) node.inputs := by
  obtain ⟨node, origins, hnode, horigins, haccounts⟩ := discover_accounts hisa h hentry hpath
  refine ⟨node, origins, hnode, horigins, ?_⟩
  rw [List.forall₂_iff_zip] at haccounts ⊢
  refine ⟨haccounts.1, ?_⟩
  intro origin input hzip
  have hinput : input ∈ node.inputs := (List.of_mem_zip hzip).2
  constructor
  · intro hmem
    exact not_masked_of_mem_sources hisa h hnode hinput hmem
  · intro hmasked
    exact (haccounts.2 hzip).resolve_right hmasked

/-- `PUSHI_DWORD 0; PUSHI_DWORD 18; JNZ`, then `PUSHI_DWORD 7; POP R2` on one path only, then
`PUSHR_DWORD R2; POP R3; RET` on both. -/
def joining : Discovery :=
  ⟨(maskBytes 0 0 [0x04, 0, 0, 0, 0, 0x04, 18, 0, 0, 0, 0x32, 0x04, 7, 0, 0, 0, 0x06, 2, 0x02, 2,
      0x06, 3, 0x34]).toArray, .reference, .ofPresets []⟩

/-- On the path that leaves `R2` alone the operand of `POP R3` is pushed at 18, which is masked. -/
theorem joining_graph :
    ∃ graph node origins, (joining.discover [⟨0, 0⟩]).outcome = .ok graph ∧
      graph.Path 0 [20, 18, 10, 5, 0] ∧ graph.get? 20 = some node ∧
      graph.originsAlong [18, 10, 5, 0] = some origins ∧ origins.popped node = [⟨3, 18⟩] ∧
      node.inputs.map (fun input => input.sources.toList) = [[11]] := by
  have hrun : (joining.discoverWithin 40 [⟨0, 0⟩]).map (fun outcome => outcome.map fun graph =>
      ([0, 5, 10, 18].map graph.successors, do
        let node ← graph.get? 20
        let origins ← graph.originsAlong [18, 10, 5, 0]
        return (origins.popped node, node.inputs.map fun input => input.sources.toList))) =
      some (.ok ([[5], [10], [18, 11], [20]], some ([⟨3, 18⟩], [[11]]))) := by cbv
  obtain ⟨graph, hgraph, hfacts⟩ := exists_discovered _ hrun
  simp only [Prod.mk.injEq, Option.bind_eq_bind, Option.bind_eq_some_iff, Option.pure_def,
    Option.some.injEq, List.map_cons, List.map_nil, List.cons.injEq, and_true] at hfacts
  obtain ⟨⟨hfirst, hsecond, hthird, hfourth⟩, node, hnode, origins, horigins, hpopped, hinputs⟩ :=
    hfacts
  refine ⟨graph, node, origins, hgraph, ?_, hnode, horigins, hpopped, hinputs⟩
  have hpath : graph.Path 0 [0] := .start
  have hpath := hpath.step (t := 5) (by simp [hfirst])
  have hpath := hpath.step (t := 10) (by simp [hsecond])
  have hpath := hpath.step (t := 18) (by simp [hthird])
  exact hpath.step (by simp [hfourth])

theorem joining_origin_mem_sources_iff :
    joining.isa = .reference ∧ ∃ graph, (joining.discover [⟨0, 0⟩]).outcome = .ok graph ∧
      graph.Path 0 [20, 18, 10, 5, 0] ∧ ∃ node origins, graph.get? 20 = some node ∧
        graph.originsAlong [18, 10, 5, 0] = some origins ∧
        List.Forall₂ (fun origin input => origin.offset ∈ input.sources ↔
          ¬graph.Masked origin.offset) (origins.popped node) node.inputs := by
  obtain ⟨graph, _, _, hgraph, hpath, _⟩ := joining_graph
  have hentry : (⟨0, 0⟩ : Export) ∈ [⟨0, 0⟩] := List.mem_singleton.2 rfl
  exact ⟨rfl, graph, hgraph, hpath, origin_mem_sources_iff rfl hgraph hentry hpath⟩

/-- Not every operand on a path is recorded as coming from its push. -/
theorem joining_loses_origin :
    ¬∀ (d : Discovery) (entry : Export) (graph : Graph), d.isa = .reference →
      (d.discover [entry]).outcome = .ok graph →
      ∀ offset earlier, graph.Path entry.offset (offset :: earlier) →
        ∃ node origins, graph.get? offset = some node ∧
          graph.originsAlong earlier = some origins ∧
          List.Forall₂ (fun origin input => origin.offset ∈ input.sources)
            (origins.popped node) node.inputs := by
  intro hall
  obtain ⟨graph, node, origins, hgraph, hpath, hnode, horigins, hpopped, hinputs⟩ := joining_graph
  obtain ⟨node', origins', hnode', horigins', hrecorded⟩ :=
    hall joining ⟨0, 0⟩ graph rfl hgraph 20 [18, 10, 5, 0] hpath
  rw [hnode] at hnode'
  rw [horigins] at horigins'
  cases hnode'
  cases horigins'
  rw [hpopped] at hrecorded
  obtain ⟨input, rest, hinput, _, hlist⟩ := List.forall₂_cons_left_iff.1 hrecorded
  rw [hlist, List.map_cons] at hinputs
  have hsources : input.sources.toList = [11] := (List.cons.inj hinputs).1
  rw [← OffsetSet.mem_toList, hsources] at hinput
  exact absurd hinput (by decide)

end Discovery

end StackLift
