import StackLift.Proofs.Abstraction

namespace StackLift

/-- The machine can run the line: its code is in the reference set, its operand fits, and the
machine has an action for it. -/
def Line.Foldable (line : Line) : Prop :=
  ∃ opcode word action, InstructionSet.reference.opcode? line.code = some opcode ∧
    line.operand.field? opcode.form = some word ∧
    Action.of? line.code line.operand = some action

def Line.ret : Line :=
  ⟨Code.ret, .none⟩

theorem Line.Foldable.encodes {line : Line} (h : line.Foldable) :
    InstructionSet.reference.Encodes line := by
  obtain ⟨opcode, word, _, hopcode, hword, _⟩ := h
  exact ⟨opcode, word, hopcode, hword⟩

theorem Line.Foldable.performs {line : Line} (h : line.Foldable) {i : Instruction}
    (hi : i.Lists .reference line) : ∃ action, i.Performs action := by
  obtain ⟨opcode, word, action, hopcode, hword, haction⟩ := h
  have hcode : i.opcode.code = line.code := InstructionSet.code_of_opcode? hi.opcode
  have hsame : i.opcode = opcode := Option.some.inj (hi.opcode.symm.trans hopcode)
  have hruns : Action.of? i.opcode.code i.operand = some action := by
    rw [hcode, hi.operand, haction]
  have hfits : i.operand.field? i.opcode.form = some word := by
    rw [hi.operand, hsame, hword]
  exact ⟨action, InstructionSet.performs_of_reference (hcode ▸ hi.opcode) hfits hruns⟩

theorem performs_of_lists {listing : List Instruction} {lines : List Line}
    (h : List.Forall₂ (fun i line => i.Lists .reference line) listing lines)
    (hlines : ∀ line ∈ lines, line.Foldable) : ∀ i ∈ listing, ∃ action, i.Performs action := by
  induction h with
  | nil => exact fun _ hi => (nomatch hi)
  | cons hlists _ ih =>
    intro i hi
    rcases List.mem_cons.1 hi with rfl | hi
    · exact (hlines _ List.mem_cons_self).performs hlists
    · exact ih (fun line hline => hlines line (List.mem_cons_of_mem _ hline)) i hi

theorem Instruction.Falls.kept {i : Instruction} (h : i.Falls) : i.kept.Falls :=
  ⟨⟨h.fixed, h.stays⟩, h.flow⟩

theorem error_of_map_eq_error {ε α β : Type} {x : Except ε α} {f : α → β} {fault : ε}
    (h : x.map f = .error fault) : x = .error fault := by
  cases x with
  | error other =>
    cases h
    rfl
  | ok a => cases h

namespace Discovery

/-- What a discovery from an entry makes of listed instructions and the last behind them, against
the machine that runs the listed ones: both underflow at the same offset, or the graph consists of
what its code kept of the instructions, and the frame recorded before each of them abstracts the
machine there. -/
inductive Simulates (d : Discovery) (entry : Export) (start : Machine) (listing : List Instruction)
    (last : Instruction) : Prop
  | underflows {offset : UInt32} :
      (d.discover [entry]).outcome = .error (.stackUnderflow offset) →
      start.run listing = .error (.stackUnderflow offset) → Simulates d entry start listing last
  | keepsUp {graph : Graph} {final : Machine} : (d.discover [entry]).outcome = .ok graph →
      start.run listing = .ok final →
      graph.nodes.map Node.toInstruction = (listing ++ [last]).map Instruction.kept →
      (∀ k node, graph.nodes[k]? = some node → ∃ m, start.run (listing.take k) = .ok m ∧
        node.frame.Abstracts start (listing.take k) m) → Simulates d entry start listing last

/-- Lines that the machine can run, with a `RET` behind them, are assembled without failing, and
discovery of their code simulates the machine if every byte has an offset of its own: offsets are
32 bits wide. -/
theorem straight_line_simulates {lines : List Line} (hlines : ∀ line ∈ lines, line.Foldable)
    (key : UInt32) (folding : Machine) (registers : RegisterFile UInt64) :
    ∃ listing last assembler, (Assembler.start .reference key).emitAll (lines ++ [.ret]) =
        .ok (listing ++ [last], assembler) ∧
      (assembler.code.size ≤ UInt32.size →
        Simulates ⟨assembler.code, .reference, folding⟩ ⟨0, key⟩ ⟨registers, []⟩ listing last) := by
  have hencodes : ∀ line ∈ lines ++ [.ret], InstructionSet.reference.Encodes line := by
    intro line hline
    rcases List.mem_append.1 hline with hline | hline
    · exact (hlines line hline).encodes
    · rw [List.mem_singleton.1 hline]
      exact ⟨_, 0, rfl, rfl⟩
  obtain ⟨listed, assembler, _, hemit, _, hlists, hlays⟩ :=
    Assembler.emitAll_lays (a := .start .reference key) hencodes
  obtain ⟨listing, last, rfl, hlisting, hlast⟩ := forall₂_concat_right hlists
  refine ⟨listing, last, assembler, hemit, ?_⟩
  intro hsize
  have hperforms := performs_of_lists hlisting hlines
  have hfalls : ∀ i ∈ listing.map Instruction.kept, i.Falls := by
    intro i hi
    obtain ⟨j, hj, rfl⟩ := List.mem_map.1 hi
    obtain ⟨action, haction⟩ := hperforms j hj
    exact haction.toFalls.kept
  have hret : some last.opcode = InstructionSet.reference.opcode? Code.ret := hlast.opcode.symm
  have hopcode : last.opcode = ⟨Code.ret, "RET", .leave, .none, .none, .none, .object⟩ :=
    Option.some.inj hret
  have hplain : last.kept.Plain := ⟨congrArg Opcode.variableArity hopcode,
    congrArg Opcode.transfersControl hopcode⟩
  have happend : (listing ++ [last]).map Instruction.kept =
      listing.map Instruction.kept ++ [last.kept] := by
    rw [List.map_append, List.map_singleton]
  have hnodes : ((Discovery.mk assembler.code .reference folding).discover [⟨0, key⟩]).outcome.map
      Graph.nodes = (Frame.start 0 key).along (listing.map Instruction.kept ++ [last.kept]) :=
    nodes_discover_straight (happend ▸ hlays hsize) hfalls hplain (congrArg Opcode.flow hopcode)
  have hagree := (Frame.abstracts_start 0 key registers).agree_along rfl hperforms
    ⟨congrArg Opcode.pops hopcode, congrArg Opcode.pushes hopcode⟩
  rw [← happend] at hnodes
  rcases hagree with ⟨offset, halong, hfails⟩ | ⟨nodes, final, halong, hends, hkept, hreached⟩
  · rw [halong] at hnodes
    exact .underflows (error_of_map_eq_error hnodes) hfails
  · rw [halong] at hnodes
    obtain ⟨graph, hgraph, rfl⟩ := ok_of_map_eq_ok hnodes
    exact .keepsUp hgraph hends hkept hreached

/-- `PUSHI_QWORD 0x100000005; POP R1; PUSHR_DWORD R1; PUSHR_OBJECT R2; ADD_QWORD; POP R3`, in which
the second push passes on the low half of the first. -/
def carrying : List Line :=
  [⟨Code.pushQword, .immediate 0x100000005⟩, ⟨Code.pop, .register .r1⟩,
    ⟨Code.pushRegisterDword, .register .r1⟩, ⟨Code.pushRegisterObject, .register .r2⟩,
    ⟨Code.addQword, .none⟩, ⟨Code.pop, .register .r3⟩]

theorem carrying_simulates :
    (∀ line ∈ carrying, line.Foldable) ∧
      ∃ listing last assembler, (Assembler.start .reference 7).emitAll (carrying ++ [.ret]) =
          .ok (listing ++ [last], assembler) ∧
        Simulates ⟨assembler.code, .reference, .ofPresets []⟩ ⟨0, 7⟩ ⟨.fill 9, []⟩ listing last := by
  have hlines : ∀ line ∈ carrying, line.Foldable := by
    simp only [carrying, List.forall_mem_cons]
    refine ⟨?_, ?_, ?_, ?_, ?_, ?_, fun _ hline => (nomatch hline)⟩ <;>
      exact ⟨_, _, _, rfl, rfl, rfl⟩
  have hsize : ((Assembler.start .reference 7).emitAll (carrying ++ [.ret])).map
      (fun emitted => emitted.2.code.size) = .ok 19 := by decide +kernel
  obtain ⟨listing, last, assembler, hemit, hsimulates⟩ :=
    straight_line_simulates hlines 7 (.ofPresets []) (.fill 9)
  rw [hemit] at hsize
  have hbytes : assembler.code.size = 19 := Except.ok.inj hsize
  have hfits : assembler.code.size ≤ UInt32.size := by
    rw [hbytes]
    decide
  exact ⟨hlines, listing, last, assembler, hemit, hsimulates hfits⟩

end Discovery

end StackLift
