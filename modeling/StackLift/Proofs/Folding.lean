import StackLift.Proofs.Deriving
import StackLift.Proofs.FirstVisit
import StackLift.Proofs.Meaning

namespace StackLift

def Line.jump : Line :=
  ⟨Code.jump, .none⟩

theorem Line.encodes_jump : InstructionSet.reference.Encodes .jump :=
  ⟨_, 0, rfl, rfl⟩

namespace Graph

variable {graph : Graph} {v : Provenance} {P : UInt32 → Prop}

theorem closedUnder_rests (graph : Graph) (v : Provenance) (Q : Prop) :
    graph.ClosedUnder fun a => Q ∧ a ∈ graph.rests v := by
  rintro node hnode ⟨hQ, hmem⟩ input hinput a ha
  obtain ⟨b, hb, hrests⟩ := mem_rests_iff.1 hmem
  have hconsumed : a ∈ graph.inputSources node.offset := by
    rw [inputSources_eq hnode]
    exact List.mem_flatMap.2 ⟨input, hinput, ha⟩
  exact ⟨hQ, mem_rests_iff.2 ⟨b, hb, .tail hrests hconsumed⟩⟩

theorem Whole.kept {m : Machine} {listing : List Instruction}
    (hperforms : ∀ i ∈ listing, ∃ action, i.Performs action ∧ i.kept.Performs action)
    (h : graph.Whole P m listing) : graph.Whole P m (listing.map Instruction.kept) := by
  intro k i reached r node hi hreached haction
  rw [List.getElem?_map] at hi
  obtain ⟨j, hj, rfl⟩ := Option.map_eq_some_iff.1 hi
  obtain ⟨action, hperform, hkept⟩ := hperforms j (List.mem_of_getElem? hj)
  rw [← List.map_take, Machine.run_kept fun i hi => hperforms i (List.mem_of_mem_take hi)]
    at hreached
  have hlow : Action.of? j.opcode.code j.operand = some (.pushLowRegister r) := by
    rw [hperform.runs, ← hkept.runs, haction]
  exact h k j reached r node hj hreached hlow

theorem whole_of_lists {m : Machine} {listing : List Instruction} {lines : List Line}
    (hlists : List.Forall₂ (fun i line => i.Lists .reference line) listing lines)
    (h : ∀ line ∈ lines, line.code ≠ Code.pushRegisterDword) : graph.Whole P m listing := by
  intro k i _ r _ hi _ haction
  obtain ⟨line, hline, hlisted⟩ := exists_mem_of_forall₂ hlists i (List.mem_of_getElem? hi)
  have hcode : i.opcode.code = line.code := InstructionSet.code_of_opcode? hlisted.opcode
  exact absurd (hcode.symm.trans (Action.eq_of_pushLowRegister haction).1) (h line hline)

end Graph

namespace Discovery

variable {d : Discovery} {lines : List Line} {listing : List Instruction} {last : Instruction}
  {key : UInt32} {registers : RegisterFile UInt64} {final : Machine} {graph : Graph} {node : Node}
  {input : Provenance} {P : UInt32 → Prop}

/-- What a transfer that pops one cell consumes on its first visit is traced by the word that the
machine has on top. -/
theorem FirstVisit.derives (h : d.FirstVisit [⟨0, key⟩] graph node)
    (hlays : d.image.Lays d.isa key 0 (listing.map Instruction.kept ++ [last.kept]))
    (hperforms : ∀ i ∈ listing, ∃ action, i.Performs action ∧ i.kept.Performs action)
    (hpops : last.opcode.pops = .one) (hnode : node.offset = last.kept.offset)
    (hinput : node.inputs.getLast? = some input) (hclosed : graph.ClosedUnder P)
    (hwhole : graph.Whole P ⟨registers, []⟩ listing)
    (hrun : (Machine.mk registers []).run listing = .ok final) :
    ∃ top rest, final.stack = top :: rest ∧
      graph.Derives ⟨registers, []⟩ P node.offset input top := by
  obtain ⟨halong, hlast⟩ := h.along hlays (falls_map_kept hperforms) hnode
  rw [← Machine.run_kept hperforms] at hrun
  obtain ⟨reached, e, hreached, hinstruction, heffect, hinputs, htraces⟩ :=
    (Frame.traces_start graph P 0 0 key registers).run hclosed hlays
      (performs_map_kept hperforms) halong (fun _ => Graph.mem_nodes_iff.1) (hwhole.kept hperforms)
      hrun
  obtain rfl : reached = node := Option.some.inj (hreached.symm.trans hlast)
  obtain ⟨count, kind, hcount, _, hle, rfl⟩ := Frame.effect_cases heffect
  have hone : reached.opcode.pops = .one := by
    rw [hinstruction]
    exact hpops
  rw [hone] at hcount
  cases hcount
  obtain ⟨v, below, hframe⟩ := List.exists_cons_of_length_pos hle
  have hstack := htraces.stack
  rw [hinputs, hframe] at hinput
  cases hinput
  rw [hframe] at hstack
  obtain ⟨top, rest, hderives, _, hfinal⟩ := List.forall₂_cons_left_iff.1 hstack
  exact ⟨top, rest, hfinal, hderives⟩

/-- What a function makes of the machine behind the lines, and of the graph and the input that the
`JMP` behind them has on its first visit. -/
def firstVisit? {α : Type} (lines : List Line) (key : UInt32) (m : Machine)
    (f : Machine → Graph → Provenance → α) : Option (Nat × α) := do
  let (listed, assembler) ← ((Assembler.start .reference key).emitAll (lines ++ [.jump])).toOption
  let nodes ← ((Frame.start 0 key).along (listed.map Instruction.kept)).toOption
  let input ← nodes.getLast? >>= fun node => node.inputs.getLast?
  let final ← (m.run listed.dropLast).toOption
  return (assembler.code.size, f final (nodes.foldl Graph.insert .empty) input)

theorem exists_of_firstVisit? {α : Type} (hlines : ∀ line ∈ lines, line.Foldable)
    {f : Machine → Graph → Provenance → α} {size : Nat}
    {facts : α} (h : firstVisit? lines key ⟨registers, []⟩ f = some (size, facts))
    (hsize : size ≤ UInt32.size) :
    ∃ listing last assembler final graph node input,
      (Assembler.start .reference key).emitAll (lines ++ [.jump]) =
        .ok (listing ++ [last], assembler) ∧ assembler.code.size ≤ UInt32.size ∧
      (Machine.mk registers []).run listing = .ok final ∧
      (Discovery.mk assembler.code .reference ⟨registers, []⟩).FirstVisit [⟨0, key⟩] graph node ∧
      node.offset = last.offset ∧ node.inputs.getLast? = some input ∧
      f final graph input = facts := by
  obtain ⟨⟨listed, assembler⟩, hlisted, h⟩ := Option.bind_eq_some_iff.1 h
  obtain ⟨nodes, halong, h⟩ := Option.bind_eq_some_iff.1 h
  obtain ⟨input, hinput, h⟩ := Option.bind_eq_some_iff.1 h
  obtain ⟨final, hrun, h⟩ := Option.bind_eq_some_iff.1 h
  cases h
  obtain ⟨listing, last, _, hemit, hlists, _, hlays⟩ :=
    exists_emitted hlines Line.encodes_jump key
  rw [hemit] at hlisted
  cases hlisted
  rw [List.map_append, List.map_singleton] at halong
  rw [List.dropLast_concat] at hrun
  have hfalls := falls_map_kept (performs_kept_of_lists hlines hlists)
  let d : Discovery := ⟨assembler.code, .reference, ⟨registers, []⟩⟩
  obtain ⟨node, hfirst, hnode, hlast⟩ := exists_firstVisit (d := d) ⟨0, key⟩ (hlays hsize) hfalls
    (ok_of_toOption_eq_some halong)
  refine ⟨listing, last, assembler, final, _, node, input, hemit, hsize,
    ok_of_toOption_eq_some hrun, hfirst, ?_, ?_, rfl⟩
  · rw [hnode]
    rfl
  · rw [hlast] at hinput
    exact hinput

/-- Lines that the machine can run, and a `JMP`, are assembled without failing. If every byte has an
offset of its own, and the machine runs the lines, the `JMP` consumes on its first visit what the
machine has on top. A fold of that which succeeds has consumed nothing twice. If everything that it
rests on has its operands in order, the fold succeeds with the low half of the word on top, and with
that word if none that it rests on is cut by a push of a low half. -/
theorem first_fold_of_straight_line (hlines : ∀ line ∈ lines, line.Foldable) (key : UInt32)
    (registers : RegisterFile UInt64) :
    ∃ listing last assembler, (Assembler.start .reference key).emitAll (lines ++ [.jump]) =
        .ok (listing ++ [last], assembler) ∧
      (assembler.code.size ≤ UInt32.size →
        let d : Discovery := ⟨assembler.code, .reference, ⟨registers, []⟩⟩
        ∀ final graph node input, d.machine.run listing = .ok final →
        d.FirstVisit [⟨0, key⟩] graph node → node.offset = last.offset →
        node.inputs.getLast? = some input →
        ∃ top rest, final.stack = top :: rest ∧
          (∀ word, d.fold graph input = .ok word →
            ((graph.rests input).toList.flatMap graph.inputSources).Nodup) ∧
          (graph.ordered input = true → ∃ word, d.fold graph input = .ok word ∧
            lowDword word = lowDword top ∧
            (graph.Whole (· ∈ graph.rests input) d.machine listing → word = top))) := by
  obtain ⟨listing, last, assembler, hemit, hlists, hlast, hlays⟩ :=
    exists_emitted hlines Line.encodes_jump key
  refine ⟨listing, last, assembler, hemit, ?_⟩
  intro hsize d final graph node input hrun hfirst hnode hinput
  have hperforms := performs_kept_of_lists hlines hlists
  have hpops : last.opcode.pops = .one :=
    congrArg Opcode.pops (Option.some.inj hlast.opcode).symm
  let uncut := graph.Whole (· ∈ graph.rests input) ⟨registers, []⟩ listing
  -- Nothing is asked of the pushes if one of them cuts a word.
  have hwhole : graph.Whole (fun a => uncut ∧ a ∈ graph.rests input) ⟨registers, []⟩ listing := by
    rintro k i reached r other hi hreached haction hip hother ⟨a, ha, huncut, hmem⟩
    exact huncut k i reached r other hi hreached haction hip hother ⟨a, ha, hmem⟩
  obtain ⟨top, rest, hstack, given, heval, _, hlow, hsame⟩ :=
    hfirst.derives (hlays hsize) hperforms hpops hnode hinput
      (graph.closedUnder_rests input uncut) hwhole hrun
  refine ⟨top, rest, hstack, fun _ hfold => heval.nodup_inputSources (fun _ _ => rfl) hfold, ?_⟩
  intro hordered
  refine ⟨given, heval.fold_eq hordered fun _ _ => rfl, hlow.symm, fun huncut => ?_⟩
  exact (hsame fun a ha => ⟨huncut, Graph.mem_rests_of_mem_sources ha⟩).symm

/-- `PUSHI_QWORD 9; POP R1; PUSHR_QWORD R1; PUSHI_DWORD 4; SUB_DWORD`, whose operands stand in
order. -/
def deducting : List Line :=
  [⟨Code.pushQword, .immediate 9⟩, ⟨Code.pop, .register .r1⟩,
    ⟨Code.pushRegisterQword, .register .r1⟩, ⟨Code.pushDword, .immediate 4⟩, ⟨Code.subDword, .none⟩]

theorem deducting_folds :
    (∀ line ∈ deducting, line.Foldable) ∧
      ∃ listing last assembler final graph node input top rest word,
        (Assembler.start .reference 7).emitAll (deducting ++ [.jump]) =
          .ok (listing ++ [last], assembler) ∧ assembler.code.size ≤ UInt32.size ∧
        (Machine.mk (.fill 0) []).run listing = .ok final ∧
        (Discovery.mk assembler.code .reference ⟨.fill 0, []⟩).FirstVisit [⟨0, 7⟩] graph node ∧
        node.offset = last.offset ∧ node.inputs.getLast? = some input ∧
        graph.ordered input = true ∧
        graph.Whole (· ∈ graph.rests input) ⟨.fill 0, []⟩ listing ∧ final.stack = top :: rest ∧
        (Discovery.mk assembler.code .reference ⟨.fill 0, []⟩).fold graph input = .ok word ∧
        word = top := by
  have hlines : ∀ line ∈ deducting, line.Foldable := by
    simp only [deducting, List.forall_mem_cons]
    refine ⟨?_, ?_, ?_, ?_, ?_, fun _ hline => (nomatch hline)⟩ <;> exact ⟨_, _, _, rfl, rfl, rfl⟩
  have hvisit : firstVisit? deducting 7 ⟨.fill 0, []⟩ (fun _ graph input => graph.ordered input) =
      some (20, true) := by cbv
  obtain ⟨listing, last, assembler, final, graph, node, input, hemit, hsize, hrun, hfirst, hnode,
    hinput, hordered⟩ := exists_of_firstVisit? hlines hvisit (by decide)
  obtain ⟨listed, _, _, hlisted, hlists, _⟩ := exists_emitted hlines Line.encodes_jump 7
  obtain ⟨emitted, _, _, hemitted, hfolds⟩ := first_fold_of_straight_line hlines 7 (.fill 0)
  rw [hemit] at hlisted hemitted
  simp only [Except.ok.injEq, Prod.mk.injEq, List.append_singleton_inj] at hlisted hemitted
  obtain ⟨⟨rfl, _⟩, _⟩ := hlisted
  obtain ⟨⟨rfl, rfl⟩, rfl⟩ := hemitted
  have hwhole : graph.Whole (· ∈ graph.rests input) ⟨.fill 0, []⟩ listing :=
    Graph.whole_of_lists hlists (by decide)
  obtain ⟨top, rest, hstack, _, hwords⟩ :=
    hfolds hsize final graph node input hrun hfirst hnode hinput
  obtain ⟨word, hfold, _, hword⟩ := hwords hordered
  exact ⟨hlines, listing, last, assembler, final, graph, node, input, top, rest, word, hemit, hsize,
    hrun, hfirst, hnode, hinput, hordered, hwhole, hstack, hfold, hword hwhole⟩

/-- `PUSHI_DWORD 2; POP R0; PUSHI_DWORD 4; PUSHR_DWORD R0; SHL_DWORD`, whose amount stands in front
of what is shifted. -/
def shifting : List Line :=
  [⟨Code.pushDword, .immediate 2⟩, ⟨Code.pop, .register .r0⟩, ⟨Code.pushDword, .immediate 4⟩,
    ⟨Code.pushRegisterDword, .register .r0⟩, ⟨Code.shlDword, .none⟩]

/-- Not every target that is folded on the first visit is the word that the machine has on top. -/
theorem shifting_misses_top :
    ¬∀ (lines : List Line) (key : UInt32) (registers : RegisterFile UInt64)
      (listing : List Instruction) (last : Instruction) (assembler : Assembler),
      (∀ line ∈ lines, line.Foldable) →
      (Assembler.start .reference key).emitAll (lines ++ [.jump]) =
        .ok (listing ++ [last], assembler) → assembler.code.size ≤ UInt32.size →
      let d : Discovery := ⟨assembler.code, .reference, ⟨registers, []⟩⟩
      ∀ final graph node input word, d.machine.run listing = .ok final →
      d.FirstVisit [⟨0, key⟩] graph node → node.offset = last.offset →
      node.inputs.getLast? = some input → d.fold graph input = .ok word →
      final.stack.head? = some word := by
  intro hall
  have hlines : ∀ line ∈ shifting, line.Foldable := by
    simp only [shifting, List.forall_mem_cons]
    refine ⟨?_, ?_, ?_, ?_, ?_, fun _ hline => (nomatch hline)⟩ <;> exact ⟨_, _, _, rfl, rfl, rfl⟩
  have hvisit : firstVisit? shifting 0 ⟨.fill 0, []⟩ (fun final graph input =>
      (final.stack, (Machine.mk (.fill 0) []).fold (graph.producers input))) =
      some (16, [16], .ok 32) := by cbv
  obtain ⟨listing, last, assembler, final, graph, node, input, hemit, hsize, hrun, hfirst, hnode,
    hinput, hfacts⟩ := exists_of_firstVisit? hlines hvisit (by decide)
  obtain ⟨hstack, hfold⟩ := Prod.mk.inj hfacts
  have htop := hall shifting 0 (.fill 0) listing last assembler hlines hemit hsize final graph node
    input 32 hrun hfirst hnode hinput hfold
  rw [hstack] at htop
  exact absurd htop (by decide)

end Discovery

end StackLift
